import CourseOs.Lib.Runs
import Mathlib.Data.Set.Insert
import Mathlib.Logic.Function.Iterate
import Mathlib.Tactic.Set

/-!
# Address space identifiers

`vm/asid_allocator.c`, and what `create_vas` and `switch_to_vas` do with it.
Ids are given out round robin; `allocated_ids` counts modulo 256 how often
each was given out or renewed, and a descriptor keeps the count it last saw.
`switch_to_vas` flushes the TLB of the id exactly when the two differ.

`Cpu` has beside the allocator and the descriptors the TLB, as the set of
address spaces that ran under an id since its last flush, and what happened so
far, which the code does not keep: the counts not reduced modulo 256, and who
ran.

A switch that does not flush is clean when nobody else ran under the id since
its last flush.  `Cpu.Unmixed` says when it is: the 8-bit count did not come
round to what the descriptor saw, and a space that runs for the first time
does not inherit an id that another ran under.  In runs of such switches the
two are equivalent (`switch_clean`).

The second condition is there because the allocator's flag
`tlb_everything_allocated`, which says that ids are being given out again, is
read by nobody: the first switch to a space whose id was used before finds the
count it was created with, and does not flush.
-/

namespace CourseOs.Asid

open Relation

/-- `ASIDDescriptor`: an id, and how often it had been given out when the
descriptor last saw it. -/
structure ASIDDescriptor where
  asid : UInt8
  cacheIteration : UInt8
  deriving DecidableEq, Repr

/-- The state of the allocator.  The flag that all ids have been given out is
kept, and nothing reads it. -/
structure AsidState where
  /-- `curr`. -/
  curr : UInt8
  /-- `allocated_ids`. -/
  allocatedIds : UInt8 → UInt8
  /-- `tlb_everything_allocated`. -/
  tlbEverythingAllocated : Bool

/-- `asid_request_descriptor`.  The identifiers go round, and each counts how
often it was given out; the descriptor is the identifier with that count. -/
def asidRequestDescriptor (s : AsidState) : AsidState × ASIDDescriptor :=
  let cacheIteration := s.allocatedIds s.curr + 1
  (⟨s.curr + 1, Function.update s.allocatedIds s.curr cacheIteration,
    if s.curr = 255 then true else s.tlbEverythingAllocated⟩, ⟨s.curr, cacheIteration⟩)

/-- `asid_check_and_update`: the descriptor it leaves, and whether to flush. -/
def asidCheckAndUpdate (s : AsidState) (desc : ASIDDescriptor) :
    AsidState × ASIDDescriptor × Bool :=
  if desc.cacheIteration ≠ s.allocatedIds desc.asid then
    let cacheIteration := s.allocatedIds desc.asid + 1
    ({ s with allocatedIds := Function.update s.allocatedIds desc.asid cacheIteration },
      { desc with cacheIteration }, true)
  else (s, desc, false)

/-- The allocator as the kernel starts with it. -/
def AsidState.initial : AsidState := ⟨0, fun _ => 0, false⟩

/-- A processor that runs address spaces, numbered in the order of their
creation.  From `count` on the fields are history, which no routine reads. -/
structure Cpu where
  asids : AsidState
  /-- How many address spaces were created. -/
  created : ℕ
  /-- The descriptor of each. -/
  desc : ℕ → ASIDDescriptor
  /-- The address spaces that ran under an id since its last flush. -/
  tlb : UInt8 → Set ℕ
  /-- How often an id was given out or renewed. -/
  count : UInt8 → ℕ
  /-- The count of its id when an address space was created or last renewed. -/
  seen : ℕ → ℕ
  /-- The address space that ran last under an id. -/
  latest : UInt8 → Option ℕ
  /-- The address spaces that ran. -/
  ran : Set ℕ

namespace Cpu

variable {u u' : Cpu} {i j : ℕ} {a : UInt8}

/-- A processor before the first address space. -/
def initial (desc : ℕ → ASIDDescriptor) : Cpu :=
  ⟨.initial, 0, desc, fun _ => ∅, fun _ => 0, fun _ => 0, fun _ => none, ∅⟩

/-- `create_vas`, as far as the identifiers go: the new address space is
numbered, and how often its identifier was given out is remembered beside it. -/
def createVas (u : Cpu) : Cpu :=
  let (asids, d) := asidRequestDescriptor u.asids
  { u with
    asids
    created := u.created + 1
    desc := Function.update u.desc u.created d
    count := Function.update u.count d.asid (u.count d.asid + 1)
    seen := Function.update u.seen u.created (u.count d.asid + 1) }

/-- `switch_to_vas`, of the address space `i`. -/
def switchToVas (u : Cpu) (i : ℕ) : Cpu :=
  let (asids, d, flush) := asidCheckAndUpdate u.asids (u.desc i)
  let n := if flush then u.count d.asid + 1 else u.count d.asid
  { u with
    asids
    desc := Function.update u.desc i d
    tlb := Function.update u.tlb d.asid (insert i (if flush then ∅ else u.tlb d.asid))
    count := Function.update u.count d.asid n
    seen := Function.update u.seen i (if flush then n else u.seen i)
    latest := Function.update u.latest d.asid (some i)
    ran := insert i u.ran }

/-- `switch_to_vas` would flush, if address space `i` were switched to now. -/
def Flushes (u : Cpu) (i : ℕ) : Prop := (asidCheckAndUpdate u.asids (u.desc i)).2.2 = true

/-- A switch to `i` meets no entry of another address space in the TLB: it
flushes, or there is none. -/
def Clean (u : Cpu) (i : ℕ) : Prop := ¬u.Flushes i → u.tlb (u.desc i).asid ⊆ {i}

/-- When a switch to `i` is clean.  `fresh`: a space that never ran, whose id
was not given out or renewed since its creation, has an id that none ran
under.  `wrapped`: the count of the id is not a positive multiple of 256 past
what the descriptor saw, unless nobody else ran under the id in the meantime. -/
structure Unmixed (u : Cpu) (i : ℕ) : Prop where
  fresh : u.count (u.desc i).asid = u.seen i → i ∉ u.ran → u.latest (u.desc i).asid = none
  wrapped : u.count (u.desc i).asid ≠ u.seen i →
    256 ∣ u.count (u.desc i).asid - u.seen i →
      u.latest (u.desc i).asid = none ∨ u.latest (u.desc i).asid = some i

/-- A call of `create_vas` or `switch_to_vas`, the latter for an address space
that has been created. -/
inductive Step : Cpu → Cpu → Prop
  | create (u : Cpu) : Step u u.createVas
  | switch {u : Cpu} {i : ℕ} (hi : i < u.created) : Step u (u.switchToVas i)

/-- A call whose switch is `Unmixed`.  A creation needs no condition, since it
flushes nothing and runs nothing. -/
inductive UnmixedStep : Cpu → Cpu → Prop
  | create (u : Cpu) : UnmixedStep u u.createVas
  | switch {u : Cpu} {i : ℕ} (hi : i < u.created) (h : u.Unmixed i) :
      UnmixedStep u (u.switchToVas i)

/-! ### The invariant

The code keeps two counters and a TLB; the history says who ran when.  The
invariant relates them: how far a descriptor is behind, and whose entries the
TLB can have under an id.  A flush is decided by counts modulo 256, so that
the two sides agree as long as no count has gone once around unseen. -/

/-- What holds in runs of unmixed switches.  It connects what the code keeps
to the history, and the TLB to who ran last. -/
structure Inv (u : Cpu) : Prop where
  /-- The allocator's counts are those of the history modulo 256. -/
  allocated : ∀ a, u.asids.allocatedIds a = UInt8.ofNat (u.count a)
  iteration : ∀ i < u.created, (u.desc i).cacheIteration = UInt8.ofNat (u.seen i)
  seen_le : ∀ i < u.created, u.seen i ≤ u.count (u.desc i).asid
  /-- No two spaces with one id saw the same count. -/
  apart : ∀ i < u.created, ∀ j < u.created, (u.desc i).asid = (u.desc j).asid →
    u.seen i = u.seen j → i = j
  ran_created : ∀ i ∈ u.ran, i < u.created
  /-- A space that ran and whose id was not given out or renewed since ran last. -/
  current : ∀ i ∈ u.ran, u.seen i = u.count (u.desc i).asid → u.latest (u.desc i).asid = some i
  latest_ran : ∀ a i, u.latest a = some i → i ∈ u.ran ∧ (u.desc i).asid = a
  /-- The TLB holds entries of the space that ran last only. -/
  tlb : ∀ a, u.tlb a = {i | u.latest a = some i}

theorem inv_initial (desc : ℕ → ASIDDescriptor) : (initial desc).Inv where
  allocated _ := rfl
  iteration i hi := absurd hi (Nat.not_lt_zero i)
  seen_le i hi := absurd hi (Nat.not_lt_zero i)
  apart i hi := absurd hi (Nat.not_lt_zero i)
  ran_created i hi := hi.elim
  current i hi := hi.elim
  latest_ran a i h := by cases h
  tlb a := by
    ext i
    exact ⟨fun h => h.elim, fun h => by cases h⟩

/-- A switch flushes when the descriptor is behind. -/
theorem flushes_iff : u.Flushes i ↔
    (u.desc i).cacheIteration ≠ u.asids.allocatedIds (u.desc i).asid := by
  unfold Flushes asidCheckAndUpdate
  split <;> simp_all

/-- A switch does not flush just when the counts agree modulo 256. -/
theorem Inv.not_flushes_iff (h : u.Inv) (hi : i < u.created) :
    ¬u.Flushes i ↔ 256 ∣ u.count (u.desc i).asid - u.seen i := by
  have hle := h.seen_le i hi
  rw [flushes_iff, not_not, h.iteration i hi, h.allocated]
  constructor
  · intro heq
    have hmod := congrArg UInt8.toNat heq
    rw [UInt8.toNat_ofNat', UInt8.toNat_ofNat'] at hmod
    omega
  · intro hdvd
    refine UInt8.toNat_inj.mp ?_
    rw [UInt8.toNat_ofNat', UInt8.toNat_ofNat']
    omega

/-- The TLB is free of others just when nobody else ran last. -/
theorem Inv.tlb_subset_iff (h : u.Inv) (a : UInt8) :
    u.tlb a ⊆ {i} ↔ u.latest a = none ∨ u.latest a = some i := by
  rw [h.tlb]
  cases hl : u.latest a with
  | none => exact iff_of_true (fun j hj => by cases hj) (Or.inl rfl)
  | some j =>
      constructor
      · intro hsub
        have hj : j = i := hsub rfl
        exact Or.inr (congrArg some hj)
      · rintro (hj | hj)
        · cases hj
        · intro k hk
          exact Option.some.inj (hk.symm.trans hj)

/-- **A switch is clean if and only if it is unmixed**, where all earlier ones
were. -/
theorem Inv.clean_iff (h : u.Inv) (hi : i < u.created) : u.Clean i ↔ u.Unmixed i := by
  unfold Clean
  rw [h.not_flushes_iff hi, h.tlb_subset_iff]
  constructor
  · intro hclean
    refine ⟨fun hseen hnew => ?_, fun _ hdvd => hclean hdvd⟩
    rcases hclean (by rw [hseen, Nat.sub_self]; exact Nat.dvd_zero _) with hnone | hsome
    · exact hnone
    · exact absurd (h.latest_ran _ _ hsome).1 hnew
  · intro hun hdvd
    by_cases hseen : u.count (u.desc i).asid = u.seen i
    · by_cases hran : i ∈ u.ran
      · exact Or.inr (h.current i hran hseen.symm)
      · exact Or.inl (hun.fresh hseen hran)
    · exact hun.wrapped hseen hdvd

/-! ### Steps

One lemma for each way a call can go.  A creation gives out an id and changes
no entry of the TLB; a switch either flushes the id, after which only the new
space has entries under it, or keeps it, which is where the condition is used. -/

theorem ofNat_succ (n : ℕ) : UInt8.ofNat n + 1 = UInt8.ofNat (n + 1) :=
  (UInt8.ofNat_add n 1).symm

/-- **A new address space** keeps the invariant.  It sees a count of its
identifier that no address space saw before, so that no older one with the
identifier is current. -/
theorem Inv.createVas (h : u.Inv) : u.createVas.Inv := by
  have hdesc : ∀ i < u.created, u.createVas.desc i = u.desc i := fun i hi =>
    Function.update_of_ne hi.ne _ _
  have hseen : ∀ i < u.created, u.createVas.seen i = u.seen i := fun i hi =>
    Function.update_of_ne hi.ne _ _
  have hnew : u.createVas.desc u.created =
      ⟨u.asids.curr, u.asids.allocatedIds u.asids.curr + 1⟩ := Function.update_self ..
  have hnewSeen : u.createVas.seen u.created = u.count u.asids.curr + 1 := Function.update_self ..
  have hcount : ∀ a, u.createVas.count a =
      if a = u.asids.curr then u.count a + 1 else u.count a := by
    intro a
    by_cases ha : a = u.asids.curr
    · rw [if_pos ha, ha]
      exact Function.update_self ..
    · rw [if_neg ha]
      exact Function.update_of_ne ha _ _
  have hcases : ∀ i < u.createVas.created, i < u.created ∨ i = u.created := fun i hi =>
    Nat.lt_succ_iff_lt_or_eq.mp hi
  refine ⟨fun a => ?_, fun i hi => ?_, fun i hi => ?_, fun i hi j hj => ?_, fun i hi => ?_,
    fun i hi hcur => ?_, fun a i hl => ?_, h.tlb⟩
  · rw [hcount]
    by_cases ha : a = u.asids.curr
    · rw [if_pos ha, ← ofNat_succ, ← h.allocated, ha]
      exact Function.update_self ..
    · rw [if_neg ha, ← h.allocated]
      exact Function.update_of_ne ha _ _
  · rcases hcases i hi with hi | rfl
    · rw [hdesc i hi, hseen i hi]
      exact h.iteration i hi
    · rw [hnew, hnewSeen, ← ofNat_succ, ← h.allocated]
  · rcases hcases i hi with hi | rfl
    · rw [hdesc i hi, hseen i hi, hcount]
      have := h.seen_le i hi
      split <;> omega
    · rw [hnew, hnewSeen, hcount, if_pos rfl]
  · -- the new space saw a count that none saw before
    have hlt : ∀ k < u.created, (u.desc k).asid = u.asids.curr →
        u.seen k ≠ u.count u.asids.curr + 1 := by
      intro k hk heq
      have := h.seen_le k hk
      rw [heq] at this
      omega
    rcases hcases i hi with hi | rfl <;> rcases hcases j hj with hj | rfl
    · rw [hdesc i hi, hdesc j hj, hseen i hi, hseen j hj]
      exact h.apart i hi j hj
    · rw [hdesc i hi, hseen i hi, hnew, hnewSeen]
      exact fun heq hs => absurd hs (hlt i hi heq)
    · rw [hdesc j hj, hseen j hj, hnew, hnewSeen]
      exact fun heq hs => absurd hs.symm (hlt j hj heq.symm)
    · exact fun _ _ => rfl
  · exact Nat.lt_succ_of_lt (h.ran_created i hi)
  · have hlt := h.ran_created i hi
    rw [hdesc i hlt] at hcur ⊢
    rw [hseen i hlt, hcount] at hcur
    have hle := h.seen_le i hlt
    by_cases ha : (u.desc i).asid = u.asids.curr
    · rw [if_pos ha] at hcur
      omega
    · rw [if_neg ha] at hcur
      exact h.current i hi hcur
  · obtain ⟨hran, hasid⟩ := h.latest_ran a i hl
    rw [hdesc i (h.ran_created i hran)]
    exact ⟨hran, hasid⟩

/-- The state after a switch that flushes. -/
theorem switchToVas_of_flushes (h : u.Flushes i) : u.switchToVas i =
    { u with
      asids := { u.asids with
        allocatedIds := Function.update u.asids.allocatedIds (u.desc i).asid
          (u.asids.allocatedIds (u.desc i).asid + 1) }
      desc := Function.update u.desc i
        ⟨(u.desc i).asid, u.asids.allocatedIds (u.desc i).asid + 1⟩
      tlb := Function.update u.tlb (u.desc i).asid {i}
      count := Function.update u.count (u.desc i).asid (u.count (u.desc i).asid + 1)
      seen := Function.update u.seen i (u.count (u.desc i).asid + 1)
      latest := Function.update u.latest (u.desc i).asid (some i)
      ran := insert i u.ran } := by
  have hcheck : asidCheckAndUpdate u.asids (u.desc i) =
      ({ u.asids with
        allocatedIds := Function.update u.asids.allocatedIds (u.desc i).asid
          (u.asids.allocatedIds (u.desc i).asid + 1) },
        ⟨(u.desc i).asid, u.asids.allocatedIds (u.desc i).asid + 1⟩, true) :=
    if_pos (flushes_iff.mp h)
  unfold switchToVas
  rw [hcheck]
  simp

/-- The state after a switch that does not flush. -/
theorem switchToVas_of_not_flushes (h : ¬u.Flushes i) : u.switchToVas i =
    { u with
      tlb := Function.update u.tlb (u.desc i).asid (insert i (u.tlb (u.desc i).asid))
      latest := Function.update u.latest (u.desc i).asid (some i)
      ran := insert i u.ran } := by
  have hcheck : asidCheckAndUpdate u.asids (u.desc i) = (u.asids, u.desc i, false) :=
    if_neg fun hne => h (flushes_iff.mpr hne)
  unfold switchToVas
  rw [hcheck]
  simp

/-- After a switch to `i`, who ran last under an id did run, and has the id. -/
theorem Inv.ran_of_update (h : u.Inv)
    (hl : Function.update u.latest (u.desc i).asid (some i) a = some j) :
    j ∈ insert i u.ran ∧ (u.desc j).asid = a := by
  by_cases ha : a = (u.desc i).asid
  · rw [ha, Function.update_self, Option.some.injEq] at hl
    rw [← hl, ha]
    exact ⟨Set.mem_insert i _, rfl⟩
  · rw [Function.update_of_ne ha] at hl
    obtain ⟨hran, hj⟩ := h.latest_ran a j hl
    exact ⟨Or.inr hran, hj⟩

/-- **A switch that flushes** keeps the invariant: the address space gets a
new count, the TLB has only its entries, and it is the latest to have run with
the identifier. -/
theorem Inv.switch_flush (h : u.Inv) (hi : i < u.created) (hf : u.Flushes i) :
    (u.switchToVas i).Inv := by
  rw [switchToVas_of_flushes hf]
  set a := (u.desc i).asid with ha
  have hasid : ∀ j, (Function.update u.desc i ⟨a, u.asids.allocatedIds a + 1⟩ j).asid =
      (u.desc j).asid := by
    intro j
    by_cases hji : j = i
    · rw [hji, Function.update_self]
    · rw [Function.update_of_ne hji]
  have hseen : ∀ j, j ≠ i → Function.update u.seen i (u.count a + 1) j = u.seen j :=
    fun j hji => Function.update_of_ne hji _ _
  have hcount : ∀ b, Function.update u.count a (u.count a + 1) b =
      if b = a then u.count a + 1 else u.count b := fun b => Function.update_apply ..
  refine ⟨fun b => ?_, fun j hj => ?_, fun j hj => ?_, fun j hj k hk => ?_, fun j hj => ?_,
    fun j hj hcur => ?_, fun b j hl => ?_, fun b => ?_⟩
  · show Function.update u.asids.allocatedIds a _ b = UInt8.ofNat (Function.update u.count a _ b)
    by_cases hb : b = a
    · rw [hb, Function.update_self, Function.update_self, ← ofNat_succ, h.allocated]
    · rw [Function.update_of_ne hb, Function.update_of_ne hb]
      exact h.allocated b
  · show (Function.update u.desc i _ j).cacheIteration =
      UInt8.ofNat (Function.update u.seen i _ j)
    by_cases hji : j = i
    · rw [hji, Function.update_self, Function.update_self, ← ofNat_succ, h.allocated]
    · rw [Function.update_of_ne hji, hseen j hji]
      exact h.iteration j hj
  · show Function.update u.seen i _ j ≤ Function.update u.count a _ _
    rw [hasid, hcount]
    by_cases hji : j = i
    · rw [hji, Function.update_self, if_pos ha.symm]
    · rw [hseen j hji]
      have := h.seen_le j hj
      split
      · rename_i hja
        rw [hja] at this
        omega
      · exact this
  · show (Function.update u.desc i _ j).asid = (Function.update u.desc i _ k).asid →
      Function.update u.seen i _ j = Function.update u.seen i _ k → j = k
    rw [hasid, hasid]
    -- the renewed space saw a count that none saw before
    have hlt : ∀ k < u.created, (u.desc k).asid = a → u.seen k ≠ u.count a + 1 := by
      intro k hk heq
      have := h.seen_le k hk
      rw [heq] at this
      omega
    intro heq hs
    by_cases hji : j = i <;> by_cases hki : k = i
    · rw [hji, hki]
    · rw [hji, Function.update_self, hseen k hki] at hs
      rw [hji] at heq
      exact absurd hs.symm (hlt k hk heq.symm)
    · rw [hki, Function.update_self, hseen j hji] at hs
      rw [hki] at heq
      exact absurd hs (hlt j hj heq)
    · rw [hseen j hji, hseen k hki] at hs
      exact h.apart j hj k hk heq hs
  · rcases hj with rfl | hj
    · exact hi
    · exact h.ran_created j hj
  · replace hcur : Function.update u.seen i _ j =
      Function.update u.count a _ (Function.update u.desc i _ j).asid := hcur
    show Function.update u.latest a (some i) (Function.update u.desc i _ j).asid = some j
    rw [hasid] at hcur ⊢
    rw [hcount] at hcur
    by_cases hji : j = i
    · rw [hji, ← ha, Function.update_self]
    · rw [hseen j hji] at hcur
      have hjr : j ∈ u.ran := hj.resolve_left hji
      have hle := h.seen_le j (h.ran_created j hjr)
      by_cases hja : (u.desc j).asid = a
      · rw [if_pos hja] at hcur
        rw [hja] at hle
        omega
      · rw [if_neg hja] at hcur
        rw [Function.update_of_ne hja]
        exact h.current j hjr hcur
  · replace hl : Function.update u.latest a (some i) b = some j := hl
    show j ∈ insert i u.ran ∧ (Function.update u.desc i _ j).asid = b
    rw [hasid]
    exact h.ran_of_update hl
  · show Function.update u.tlb a {i} b = {j | Function.update u.latest a (some i) b = some j}
    by_cases hb : b = a
    · rw [hb, Function.update_self, Function.update_self]
      ext j
      exact ⟨fun hj => congrArg some hj.symm, fun hj => (Option.some.inj hj).symm⟩
    · rw [Function.update_of_ne hb, Function.update_of_ne hb]
      exact h.tlb b

/-- **A switch without a flush** keeps the invariant, where the TLB has no
other's entries for the identifier. -/
theorem Inv.switch_keep (h : u.Inv) (hi : i < u.created) (hf : ¬u.Flushes i)
    (hclean : u.Clean i) : (u.switchToVas i).Inv := by
  have hlatest := (h.tlb_subset_iff _).mp (hclean hf)
  rw [switchToVas_of_not_flushes hf]
  set a := (u.desc i).asid with ha
  refine ⟨h.allocated, h.iteration, h.seen_le, h.apart, fun j hj => ?_, fun j hj hcur => ?_,
    fun b j hl => ?_, fun b => ?_⟩
  · rcases hj with rfl | hj
    · exact hi
    · exact h.ran_created j hj
  · show Function.update u.latest a (some i) (u.desc j).asid = some j
    by_cases hji : j = i
    · rw [hji, ← ha, Function.update_self]
    · have hj' := h.current j (hj.resolve_left hji) hcur
      have hja : (u.desc j).asid ≠ a := by
        intro heq
        rw [heq] at hj'
        rcases hlatest with hnone | hsome
        · cases hnone.symm.trans hj'
        · exact hji (Option.some.inj (hj'.symm.trans hsome))
      rw [Function.update_of_ne hja]
      exact hj'
  · replace hl : Function.update u.latest a (some i) b = some j := hl
    exact h.ran_of_update hl
  · show Function.update u.tlb a (insert i (u.tlb a)) b =
      {j | Function.update u.latest a (some i) b = some j}
    by_cases hb : b = a
    · rw [hb, Function.update_self, Function.update_self]
      ext j
      constructor
      · rintro (rfl | hj)
        · rfl
        · exact congrArg some (hclean hf hj).symm
      · intro hj
        exact Or.inl (Option.some.inj hj).symm
    · rw [Function.update_of_ne hb, Function.update_of_ne hb]
      exact h.tlb b

theorem Inv.step (h : u.Inv) (hstep : UnmixedStep u u') : u'.Inv := by
  cases hstep with
  | create => exact h.createVas
  | @switch i hi hun =>
      by_cases hf : u.Flushes i
      · exact h.switch_flush hi hf
      · exact h.switch_keep hi hf ((h.clean_iff hi).mpr hun)

/-- **No stale TLB entries**: in every run of unmixed switches, a switch in
the state reached is clean if and only if it is unmixed. -/
theorem switch_clean (desc : ℕ → ASIDDescriptor) :
    ∀ u, ReflTransGen UnmixedStep (initial desc) u → ∀ i < u.created, u.Clean i ↔ u.Unmixed i :=
  fun _ hrun _ hi =>
    (Runs.invariant (fun _ _ h hstep => h.step hstep) hrun (inv_initial desc)).clean_iff hi

/-- The second address space, after the first one ran. -/
theorem switch_clean_second :
    ((initial fun _ => ⟨0, 0⟩).createVas.switchToVas 0).createVas.Clean 1 ↔
      ((initial fun _ => ⟨0, 0⟩).createVas.switchToVas 0).createVas.Unmixed 1 := by
  refine switch_clean (fun _ => ⟨0, 0⟩) _ ?_ 1 Nat.one_lt_two
  have hrun : ReflTransGen UnmixedStep (initial fun _ => ⟨0, 0⟩) (createVas _) :=
    .single (.create _)
  refine (hrun.tail (.switch Nat.zero_lt_one ?_)).tail (.create _)
  exact ⟨fun _ _ => rfl, fun _ _ => .inl rfl⟩

/-! ### Ids given out twice

There are 256 ids, and the flag that says so is read by nobody.  The 257th
address space gets the id of the first, with a count that is up to date. -/

theorem createVas_curr (u : Cpu) : u.createVas.asids.curr = u.asids.curr + 1 := rfl

/-- Creations go round the ids and leave the TLB alone.  After 256 of them the
same id is next. -/
theorem iterate_createVas (n : ℕ) (u : Cpu) :
    (createVas^[n] u).asids.curr = u.asids.curr + UInt8.ofNat n ∧
      (createVas^[n] u).tlb = u.tlb ∧ (createVas^[n] u).created = u.created + n ∧
      ReflTransGen Step u (createVas^[n] u) := by
  induction n with
  | zero => exact ⟨(UInt8.add_zero _).symm, rfl, rfl, .refl⟩
  | succ n ih =>
      obtain ⟨hcurr, htlb, hcreated, hrun⟩ := ih
      rw [Function.iterate_succ_apply']
      refine ⟨?_, htlb, ?_, hrun.tail (.create _)⟩
      · rw [createVas_curr, hcurr, UInt8.add_assoc, ofNat_succ]
      · exact (congrArg (· + 1) hcreated).trans (Nat.add_assoc _ n 1)

/-- The first of 257 address spaces runs, and then the last: they share the id
0, and the last finds the entries of the first. -/
theorem reused_asid_not_flushed :
    ∃ u, ReflTransGen Step (initial fun _ => ⟨0, 0⟩) u ∧ ∃ i < u.created, ¬u.Clean i := by
  let u₁ := (initial fun _ => ⟨0, 0⟩).createVas.switchToVas 0
  have hrun₁ : ReflTransGen Step (initial fun _ => ⟨0, 0⟩) u₁ :=
    .tail (.tail .refl (.create _)) (.switch Nat.zero_lt_one)
  have hcurr₁ : u₁.asids.curr = 1 := rfl
  have hcreated₁ : u₁.created = 1 := rfl
  have hran₁ : 0 ∈ u₁.tlb 0 := Or.inl rfl
  obtain ⟨hcurr, htlb, hcreated, hrun⟩ := iterate_createVas 255 u₁
  generalize createVas^[255] u₁ = u₂ at hcurr htlb hcreated hrun
  have hcurr₂ : u₂.asids.curr = 0 := by
    rw [hcurr, hcurr₁]
    rfl
  have hcreated₂ : u₂.created = 256 := by rw [hcreated, hcreated₁]
  have hdesc : u₂.createVas.desc 256 = ⟨0, u₂.asids.allocatedIds 0 + 1⟩ := by
    rw [← hcreated₂, ← hcurr₂]
    exact Function.update_self ..
  have hsame : u₂.createVas.asids.allocatedIds 0 = u₂.asids.allocatedIds 0 + 1 := by
    rw [← hcurr₂]
    exact Function.update_self ..
  refine ⟨u₂.createVas, (hrun₁.trans hrun).tail (.create _), 256, ?_, fun hclean => ?_⟩
  · show 256 < u₂.created + 1
    rw [hcreated₂]
    decide
  · have hkeep : ¬u₂.createVas.Flushes 256 := by
      rw [flushes_iff, hdesc, not_not]
      exact hsame.symm
    have hsub := hclean hkeep
    rw [hdesc] at hsub
    have hmem : 0 ∈ u₂.createVas.tlb 0 := by
      show 0 ∈ u₂.tlb 0
      rw [htlb]
      exact hran₁
    have h0 : 0 = 256 := hsub hmem
    omega

end Cpu

end CourseOs.Asid
