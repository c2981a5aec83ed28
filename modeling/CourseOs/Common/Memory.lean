import CourseOs.Lib.StepLoop
import CourseOs.Lib.TwosComplement
import Mathlib.Tactic.Linarith
import Mathlib.Tactic.Ring

/-!
# Memory detection

`detect_memory` of `common/memory.s` finds out how much RAM the board has by
writing a word and reading it back.  It is a search with a step that is
halved: `r0` is the address reached, `r3` the step.  A probe that is answered
keeps the new address; a probe that is not takes the step back and halves it,
and the search ends when the step is used up.  An address inside a forbidden
region, where the hardware keeps its registers, is moved to the region's end
before it is probed.

## Main definitions

* `detectMemoryLoop answers` — one probe; `answers` is what the board does
  with a word, so that the search can be looked at on any board.  The
  comparisons are signed, as in the source.
* `ram S` — a board that answers exactly below `S`.
* `Detected S r written` — what is asked of a result: not beyond the RAM, not
  further than a word below its end, and no word of a forbidden region written
  on the way.

## Main results

* `detectMemory_exact` — the search ends on every board whose RAM is a whole
  number of MiB above one, and its result is right exactly where the RAM does
  not end in the last 3 MiB below the end of the forbidden region.
* `detectMemory_overreports` — RAM that ends 1 MiB below the region is
  reported up to the end of the region.

## How the search is followed

While no address is moved, the search keeps `r0 < S`: it is at an address that
has answered, and the steps it can still take reach beyond the RAM
(`leads_within_step`, `last_of_step`).  With every step size it comes to the
last multiple below the end of the RAM, and with step 1 to `S - 1`
(`returns_of_open`).

A moved address breaks this.  Where it fails, taking the step back does not
lead to where the search came from: it goes to `0x3ff00000` less the step,
whether that address was probed or not (`returns_from_skip`).  From there all
further probes are moved to the same place and fail, so that only the halving
goes on, and the result is the end of the region less one.
-/

namespace CourseOs.Memory

open StepLoop

/-- `max_memory_size`, one GiB: where the search ends at the latest. -/
def maxMemorySize : ℤ := 0x40000000

/-- The table from `mmio_regions_start` to `mmio_regions_end`: first and one
past the last address of each forbidden region. -/
def mmioRegions : List (ℤ × ℤ) := [(0x3fe00000, 0x3ff00000)]

/-- `detect_memory_forbidden_loop`: the address to probe for the address in
`r0`.  It is `r0` itself, or the end of the region that `r0` lies in. -/
def forbiddenLoop (r0 : ℤ) : List (ℤ × ℤ) → ℤ
  | [] => r0
  | (start, stop) :: regions =>
      if start ≤ r0 then
        -- maybe forbidden
        if stop ≤ r0 then forbiddenLoop r0 regions else stop
      else forbiddenLoop r0 regions

/-- The registers of the search, and the addresses of the words it has
written.  The last one written is the last of the list. -/
structure Search where
  r0 : ℤ
  r3 : ℤ
  written : List ℤ

/-- `detect_memory_loop`.  `answers` says of which addresses the 42 stored
there is read back; the comparisons are signed.  The loop goes on with a
smaller step, or is left with the result and the words written. -/
def detectMemoryLoop (answers : ℤ → Bool) (s : Search) : Search ⊕ (ℤ × List ℤ) :=
  let r0 := forbiddenLoop (int32 (s.r0 + s.r3)) mmioRegions
  let written := s.written ++ [r0]
  if answers r0 then
    if r0 < maxMemorySize then .inl ⟨r0, s.r3, written⟩ else .inr (r0, written)
  else
    let r0 := int32 (r0 - s.r3)
    let r3 := s.r3 / 2
    if r3 = 0 then .inr (r0, written) else .inl ⟨r0, r3, written⟩

/-- `detect_memory`, for at most `n` probes: the result in `r1` and the words
written. -/
def detectMemory (answers : ℤ → Bool) (n : ℕ) : Option (ℤ × List ℤ) :=
  run (detectMemoryLoop answers) n ⟨0, 0x10000000, []⟩

/-- A board with `S` bytes of RAM: exactly the addresses below are answered. -/
def ram (S a : ℤ) : Bool := decide (a < S)

/-- The word at `a` lies outside all forbidden regions. -/
def Clear (a : ℤ) : Prop := ∀ region ∈ mmioRegions, a + 4 ≤ region.1 ∨ region.2 ≤ a

theorem clear_iff {a : ℤ} : Clear a ↔ a + 4 ≤ 0x3fe00000 ∨ 0x3ff00000 ≤ a :=
  List.forall_mem_singleton

/-- A moved address is the end of the region. -/
theorem forbiddenLoop_of_mem {a : ℤ} (h : 0x3fe00000 ≤ a) (h' : a < 0x3ff00000) :
    forbiddenLoop a mmioRegions = 0x3ff00000 := by
  show (if (0x3fe00000 : ℤ) ≤ a then if (0x3ff00000 : ℤ) ≤ a then a else 0x3ff00000 else a) = _
  rw [if_pos h, if_neg (Int.not_le.mpr h')]

/-- All others stay. -/
theorem forbiddenLoop_of_clear {a : ℤ} (h : Clear a) : forbiddenLoop a mmioRegions = a := by
  rw [clear_iff] at h
  show (if (0x3fe00000 : ℤ) ≤ a then if (0x3ff00000 : ℤ) ≤ a then a else 0x3ff00000 else a) = a
  split
  · rw [if_pos (by omega)]
  · rfl

/-! ### One probe

As long as the step is small enough nothing wraps around, and the signed
comparisons of the source are comparisons of addresses.  The search starts
with such a step, and the step only gets smaller. -/

variable {S r0 d a base : ℤ} {w : List ℤ}

/-- A step of the search is small enough for its addresses to be exact: no sum
of an address and a step leaves the range of signed words. -/
structure Step (S r0 d : ℤ) : Prop where
  ram : S ≤ maxMemorySize
  nonneg : 0 ≤ r0
  below : r0 ≤ maxMemorySize
  pos : 0 < d
  small : d ≤ 0x10000000

theorem step_of_answer (h : Step S r0 d) (ha : forbiddenLoop (r0 + d) mmioRegions = a)
    (hlt : a < S) : detectMemoryLoop (ram S) ⟨r0, d, w⟩ = .inl ⟨a, d, w ++ [a]⟩ := by
  obtain ⟨hS, h0, hmax, hpos, hsmall⟩ := h
  unfold maxMemorySize at hS hmax
  have hexact : int32 (r0 + d) = r0 + d := int32_of_isInt32 ⟨by omega, by omega⟩
  have hyes : ram S a = true := decide_eq_true hlt
  unfold detectMemoryLoop
  dsimp only
  rw [hexact, ha, if_pos hyes, if_pos (by unfold maxMemorySize; omega)]

theorem step_of_no_answer (h : Step S r0 d) (ha : forbiddenLoop (r0 + d) mmioRegions = a)
    (hge : S ≤ a) (hback : IsInt32 (a - d)) :
    detectMemoryLoop (ram S) ⟨r0, d, w⟩ =
      if d / 2 = 0 then .inr (a - d, w ++ [a]) else .inl ⟨a - d, d / 2, w ++ [a]⟩ := by
  obtain ⟨hS, h0, hmax, hpos, hsmall⟩ := h
  unfold maxMemorySize at hS hmax
  have hexact : int32 (r0 + d) = r0 + d := int32_of_isInt32 ⟨by omega, by omega⟩
  have hno : ram S a = false := decide_eq_false (Int.not_lt.mpr hge)
  unfold detectMemoryLoop
  dsimp only
  rw [hexact, ha, hno, int32_of_isInt32 hback]
  rfl

/-! ### One step size

Within one step size the addresses are multiples of the step, each verified by
the probe before, until the probe behind the RAM fails.  Where no such
multiple lies in a forbidden region, no address is moved and the search is a
plain one. -/

/-- A search at an address from `base` on and below `S` that has written
outside the regions.  It does not come back below `base`. -/
structure Sound (S base r0 : ℤ) (written : List ℤ) : Prop where
  low : base ≤ r0
  verified : r0 < S
  clear : ∀ a ∈ written, Clear a

/-- The multiples of `d` that the search may probe lie outside the regions, so
that none of its addresses is moved. -/
def Open (S base d : ℤ) : Prop := ∀ a, base < a → d ∣ a → a < S + d → Clear a

theorem forall_mem_append {w : List ℤ} {a : ℤ} (hw : ∀ a ∈ w, Clear a) (ha : Clear a) :
    ∀ b ∈ w ++ [a], Clear b := by
  intro b hb
  rcases List.mem_append.mp hb with hb | hb
  · exact hw b hb
  · rw [List.mem_singleton.mp hb]
    exact ha

/-- With one step size the search comes to the last multiple below the end of
the RAM.  The induction is on the number of multiples that are still below it. -/
theorem leads_within_step (hbase : 0 ≤ base) (hS : S ≤ maxMemorySize) (hpos : 0 < d)
    (hsmall : d ≤ 0x10000000) (hopen : Open S base d) (m : ℕ) :
    ∀ r0 w, Sound S base r0 w → d ∣ r0 → S ≤ r0 + (m + 1) * d →
      ∃ q w', Leads (detectMemoryLoop (ram S)) ⟨r0, d, w⟩ ⟨q, d, w'⟩ ∧
        Sound S base q w' ∧ d ∣ q ∧ S ≤ q + d := by
  induction m with
  | zero =>
      intro r0 w hsound hdvd hle
      rw [Nat.cast_zero, zero_add, one_mul] at hle
      exact ⟨r0, w, .refl, hsound, hdvd, hle⟩
  | succ m ih =>
      intro r0 w hsound hdvd hle
      obtain ⟨hlow, hlt, hw⟩ := hsound
      by_cases hend : S ≤ r0 + d
      · exact ⟨r0, w, .refl, ⟨hlow, hlt, hw⟩, hdvd, hend⟩
      · have hdvd' : d ∣ r0 + d := Int.dvd_add hdvd (Int.dvd_refl d)
        have hclear : Clear (r0 + d) := hopen _ (by omega) hdvd' (by omega)
        have hstep : detectMemoryLoop (ram S) ⟨r0, d, w⟩ = .inl ⟨r0 + d, d, w ++ [r0 + d]⟩ :=
          step_of_answer ⟨hS, by omega, by omega, hpos, hsmall⟩ (forbiddenLoop_of_clear hclear)
            (by omega)
        have hle' : S ≤ r0 + d + (m + 1) * d := by
          rw [Nat.cast_succ] at hle
          linarith
        obtain ⟨q, w', hleads, hq⟩ := ih (r0 + d) (w ++ [r0 + d])
          ⟨by omega, by omega, forall_mem_append hw hclear⟩ hdvd' hle'
        exact ⟨q, w', .head hstep hleads, hq⟩

/-- The last probe of a step size: it fails, and the search is back at a
verified address.  The next address with that step would be past the end of
the RAM. -/
theorem last_of_step (hbase : 0 ≤ base) (hS : S ≤ maxMemorySize) (hpos : 0 < d)
    (hsmall : d ≤ 0x10000000) (hopen : Open S base d) (hsound : Sound S base r0 w)
    (hdvd : d ∣ r0) :
    ∃ q w', Leads (detectMemoryLoop (ram S)) ⟨r0, d, w⟩ ⟨q, d, w'⟩ ∧
      Sound S base q (w' ++ [q + d]) ∧ d ∣ q ∧ S ≤ q + d ∧
      detectMemoryLoop (ram S) ⟨q, d, w'⟩ =
        if d / 2 = 0 then .inr (q, w' ++ [q + d]) else .inl ⟨q, d / 2, w' ++ [q + d]⟩ := by
  have hm : S ≤ r0 + ((S - r0).toNat + 1) * d := by
    have hself : (((S - r0).toNat : ℕ) : ℤ) = S - r0 :=
      Int.toNat_of_nonneg (sub_nonneg.mpr hsound.verified.le)
    rw [hself]
    nlinarith [hsound.verified]
  obtain ⟨q, w', hleads, ⟨hlow, hlt, hw⟩, hq, hend⟩ :=
    leads_within_step hbase hS hpos hsmall hopen _ r0 w hsound hdvd hm
  have hclear : Clear (q + d) := hopen _ (by omega) (Int.dvd_add hq (Int.dvd_refl d)) (by omega)
  have hstep := step_of_no_answer (w := w') ⟨hS, by omega, by omega, hpos, hsmall⟩
    (forbiddenLoop_of_clear hclear) hend (by
      unfold maxMemorySize at hS
      constructor <;> omega)
  rw [add_sub_cancel_right] at hstep
  exact ⟨q, w', hleads, ⟨hlow, hlt, forall_mem_append hw hclear⟩, hq, hend, hstep⟩

/-! ### All step sizes

The invariant between two step sizes: the address reached is the last multiple
of the step below the end of the RAM.  With the step 1 at the end this is the
last byte of the RAM, one less than its size. -/

/-- A step is halved at the last of its multiples below the end of the RAM,
which is at most one step away from the end. -/
theorem leads_to_half (hbase : 0 ≤ base) (hS : S ≤ maxMemorySize) {k : ℕ} (hk : k + 1 ≤ 28)
    (hopen : Open S base (2 ^ (k + 1))) (hsound : Sound S base r0 w)
    (hdvd : (2 ^ (k + 1) : ℤ) ∣ r0) :
    ∃ q w', Leads (detectMemoryLoop (ram S)) ⟨r0, 2 ^ (k + 1), w⟩ ⟨q, 2 ^ k, w'⟩ ∧
      Sound S base q w' ∧ (2 ^ (k + 1) : ℤ) ∣ q ∧ S ≤ q + 2 ^ (k + 1) := by
  have hpow : (2 : ℤ) ^ (k + 1) = 2 * 2 ^ k := pow_succ' 2 k
  have hpos : (0 : ℤ) < 2 ^ k := pow_pos zero_lt_two k
  have hsmall : (2 : ℤ) ^ (k + 1) ≤ 2 ^ 28 := pow_le_pow_right₀ one_le_two hk
  obtain ⟨q, w', hleads, hq, hqdvd, hend, hstep⟩ := last_of_step hbase hS (by omega)
    (hsmall.trans (by norm_num)) hopen hsound hdvd
  have hhalf : (2 : ℤ) ^ (k + 1) / 2 = 2 ^ k := by omega
  rw [hhalf, if_neg (by omega)] at hstep
  exact ⟨q, _, hleads.tail hstep, hq, hqdvd, hend⟩

/-- From the step `2 ^ (k + n + 1)` the search comes to the step `2 ^ k`.
This is the induction over the step sizes, as long as no address is moved by a
region. -/
theorem leads_to_step (hbase : 0 ≤ base) (hS : S ≤ maxMemorySize) (n : ℕ) {k : ℕ}
    (hk : k + n + 1 ≤ 28) (hopen : ∀ j, k < j → Open S base (2 ^ j))
    (hsound : Sound S base r0 w) (hdvd : (2 ^ (k + n + 1) : ℤ) ∣ r0) :
    ∃ q w', Leads (detectMemoryLoop (ram S)) ⟨r0, 2 ^ (k + n + 1), w⟩ ⟨q, 2 ^ k, w'⟩ ∧
      Sound S base q w' ∧ (2 ^ (k + 1) : ℤ) ∣ q ∧ S ≤ q + 2 ^ (k + 1) := by
  induction n generalizing k with
  | zero => exact leads_to_half hbase hS hk (hopen _ (Nat.lt_succ_self k)) hsound hdvd
  | succ n ih =>
      have hexp : k + (n + 1) + 1 = k + 1 + n + 1 := by omega
      rw [hexp] at hdvd hk ⊢
      obtain ⟨q₁, w₁, hleads₁, hq₁, hdvd₁, -⟩ :=
        ih hk (fun j hj => hopen j (Nat.lt_of_succ_lt hj)) hdvd
      have hdvd' : (2 ^ (k + 1) : ℤ) ∣ q₁ := (pow_dvd_pow 2 (Nat.le_succ _)).trans hdvd₁
      obtain ⟨q, w', hleads, hq⟩ :=
        leads_to_half hbase hS (by omega) (hopen _ (Nat.lt_succ_self k)) hq₁ hdvd'
      exact ⟨q, w', hleads₁.trans hleads, hq⟩

/-- A search that is moved by no region ends one byte below the end of the
RAM.  It returns, and it returns nothing else. -/
theorem returns_of_open (hbase : 0 ≤ base) (hS : S ≤ maxMemorySize) {n : ℕ} (hn : n + 1 ≤ 28)
    (hopen : ∀ j, Open S base (2 ^ j)) (hsound : Sound S base r0 w)
    (hdvd : (2 ^ (n + 1) : ℤ) ∣ r0) :
    ∃ w', (∀ a ∈ w', Clear a) ∧ ∀ x,
      Returns (detectMemoryLoop (ram S)) ⟨r0, 2 ^ (n + 1), w⟩ x ↔ x = (S - 1, w') := by
  have hexp : n + 1 = 0 + n + 1 := by omega
  rw [hexp] at hn hdvd ⊢
  obtain ⟨q₁, w₁, hleads₁, hq₁, -, -⟩ :=
    leads_to_step hbase hS n hn (fun j _ => hopen j) hsound hdvd
  rw [pow_zero] at hleads₁
  obtain ⟨q, w', hleads, hq, -, hend, hstep⟩ := last_of_step hbase hS one_pos (by norm_num)
    (hopen 0) hq₁ (Int.one_dvd _)
  have hlt := hq.verified
  obtain rfl : q = S - 1 := by omega
  rw [if_pos (by norm_num)] at hstep
  exact ⟨_, hq.clear, fun x => Leads.returns (hleads₁.trans hleads) hstep⟩

/-! ### The forbidden region

A board whose RAM ends well below the region, or behind it, is searched as if
there were no region.  If it ends closer to the region than the step, a probe
is moved to the end of the region.  When it fails there, each step back is
followed by a step into the region again, and the search closes in on the end
of the region instead of that of the RAM. -/

/-- No multiple of 4 MiB is moved. -/
theorem open_of_wide (S base : ℤ) {j : ℕ} (hj : 22 ≤ j) : Open S base (2 ^ j) := by
  intro a _ hdvd _
  obtain ⟨c, hc⟩ := (pow_dvd_pow 2 hj).trans hdvd
  rw [clear_iff]
  omega

/-- Where the RAM ends 2 MiB below the region or before, no address is moved. -/
theorem open_of_low (hS : S ≤ 0x3fc00000) (base : ℤ) (j : ℕ) : Open S base (2 ^ j) := by
  by_cases hj : 22 ≤ j
  · exact open_of_wide S base hj
  · intro a _ hdvd hlt
    have hend : (2 ^ j : ℤ) ∣ 0x3fc00000 :=
      (pow_dvd_pow 2 (by omega : j ≤ 22)).trans ⟨255, by norm_num⟩
    have hle : a ≤ 0x3fc00000 := by
      by_contra hgt
      have := Int.le_of_dvd (by omega) (Int.dvd_sub hdvd hend)
      omega
    rw [clear_iff]
    omega

/-- Behind the region no address is moved. -/
theorem open_behind (S d : ℤ) : Open S 0x3ff00000 d := fun _ hlt _ _ => clear_iff.mpr (.inr hlt.le)

/-- Once a moved address has failed, the search goes on to the end of the
region whatever is there: each step back is followed by a step into the
region, which is moved again. -/
theorem returns_from_skip (hS : S ≤ 0x3ff00000) {k : ℕ} (hk : k ≤ 20) (hw : ∀ a ∈ w, Clear a) :
    ∃ w', (∀ a ∈ w', Clear a) ∧ ∀ x,
      Returns (detectMemoryLoop (ram S)) ⟨0x3ff00000 - 2 ^ (k + 1), 2 ^ k, w⟩ x ↔
        x = (0x3fefffff, w') := by
  induction k generalizing w with
  | zero =>
      have hw' := forall_mem_append hw (clear_iff.mpr (.inr le_rfl))
      have hlast : Step S 0x3feffffe 1 :=
        ⟨by unfold maxMemorySize; omega, by norm_num, by unfold maxMemorySize; norm_num, one_pos,
          by norm_num⟩
      have hstep := step_of_no_answer (w := w) hlast
        (forbiddenLoop_of_mem (by norm_num) (by norm_num)) hS (by decide)
      exact ⟨_, hw', fun x => returns_iff_of_done hstep⟩
  | succ k ih =>
      have hpow : (2 : ℤ) ^ (k + 1) = 2 * 2 ^ k := pow_succ' 2 k
      have hpow' : (2 : ℤ) ^ (k + 1 + 1) = 2 * 2 ^ (k + 1) := pow_succ' 2 (k + 1)
      have hpos : (0 : ℤ) < 2 ^ k := pow_pos zero_lt_two k
      have hsmall : (2 : ℤ) ^ (k + 1) ≤ 2 ^ 20 := pow_le_pow_right₀ one_le_two hk
      have hw' := forall_mem_append hw (clear_iff.mpr (.inr (le_refl (0x3ff00000 : ℤ))))
      have hnext : Step S (0x3ff00000 - 2 ^ (k + 1 + 1)) (2 ^ (k + 1)) :=
        ⟨by unfold maxMemorySize; omega, by omega, by unfold maxMemorySize; omega, by omega,
          by omega⟩
      have hstep := step_of_no_answer (w := w) hnext
        (forbiddenLoop_of_mem (by omega) (by omega)) hS (by constructor <;> omega)
      have hhalf : (2 : ℤ) ^ (k + 1) / 2 = 2 ^ k := by omega
      rw [hhalf, if_neg (by omega)] at hstep
      obtain ⟨w', hclear, hx⟩ := ih (by omega) hw'
      exact ⟨w', hclear, fun x => (returns_iff_of_step hstep).trans (hx x)⟩

/-- What a search of `S` bytes ends at: the last byte of the RAM, or the last
byte of the region where the RAM ends too close to it. -/
def detected (S : ℤ) : ℤ := if 0x3fc00000 < S ∧ S ≤ 0x3ff00000 then 0x3fefffff else S - 1

/-- **The search ends**, at the last byte of the RAM or at the last one of the
region, and its words lie outside the region. -/
theorem detectMemory_returns (hpos : 0 < S) (hS : S ≤ maxMemorySize) :
    ∃ w, (∀ a ∈ w, Clear a) ∧ ∀ x,
      Returns (detectMemoryLoop (ram S)) ⟨0, 0x10000000, []⟩ x ↔ x = (detected S, w) := by
  have hstart : Sound S 0 0 [] := ⟨le_rfl, hpos, fun _ h => absurd h List.not_mem_nil⟩
  have hfirst : (0x10000000 : ℤ) = 2 ^ 28 := by norm_num
  rw [hfirst]
  by_cases hlow : S ≤ 0x3fc00000
  · have heq : detected S = S - 1 := if_neg (by omega)
    rw [heq]
    exact returns_of_open le_rfl hS (n := 27) le_rfl (open_of_low hlow 0) hstart (Int.dvd_zero _)
  · -- all steps of 4 MiB and more lead to the last multiple of 4 MiB below the region
    have hwide : ∀ j, 21 < j → Open S 0 (2 ^ j) := fun j hj => open_of_wide S 0 hj
    obtain ⟨q, w, hleads, ⟨-, hlt, hw⟩, ⟨c, hc⟩, hend⟩ :=
      leads_to_step (n := 6) (k := 21) le_rfl hS (by norm_num) hwide hstart (Int.dvd_zero _)
    unfold maxMemorySize at hS
    obtain rfl : q = 0x3fc00000 := by omega
    -- the step of 2 MiB leads to the start of the region, and the search is moved to its end
    have hmoved : forbiddenLoop (0x3fc00000 + 2 ^ 21) mmioRegions = 0x3ff00000 :=
      forbiddenLoop_of_mem (by norm_num) (by norm_num)
    have hw' := forall_mem_append hw (clear_iff.mpr (.inr (le_refl (0x3ff00000 : ℤ))))
    have hstep : Step S 0x3fc00000 (2 ^ 21) :=
      ⟨hS, by norm_num, by unfold maxMemorySize; norm_num, by norm_num, by norm_num⟩
    by_cases hhigh : S ≤ 0x3ff00000
    · have heq : detected S = 0x3fefffff := if_pos ⟨by omega, hhigh⟩
      have hfail := step_of_no_answer (w := w) hstep hmoved hhigh (by decide)
      obtain ⟨w₁, hclear, hx⟩ := returns_from_skip hhigh (k := 20) le_rfl hw'
      rw [heq]
      exact ⟨w₁, hclear, fun x =>
        hleads.returns_iff.trans ((returns_iff_of_step hfail).trans (hx x))⟩
    · have heq : detected S = S - 1 := if_neg (by omega)
      have hanswer := step_of_answer (w := w) hstep hmoved (by omega)
      -- the next probe is behind the RAM
      have hbehind : Clear (0x3ff00000 + 2 ^ 21) := clear_iff.mpr (.inr (by norm_num))
      have hnext : Step S 0x3ff00000 (2 ^ 21) :=
        ⟨hS, by norm_num, by unfold maxMemorySize; norm_num, by norm_num, by norm_num⟩
      have hfail := step_of_no_answer (w := w ++ [0x3ff00000]) hnext
        (forbiddenLoop_of_clear hbehind) (by omega) (by decide)
      have hback : (0x3ff00000 : ℤ) + 2 ^ 21 - 2 ^ 21 = 0x3ff00000 := by norm_num
      rw [hback] at hfail
      have hsound := Sound.mk le_rfl (Int.not_le.mp hhigh) (forall_mem_append hw' hbehind)
      obtain ⟨w₁, hclear, hx⟩ := returns_of_open (n := 19) (by norm_num) hS (by norm_num)
        (fun j => open_behind S (2 ^ j)) hsound ⟨1023, by norm_num⟩
      rw [heq]
      exact ⟨w₁, hclear, fun x => hleads.returns_iff.trans
        ((returns_iff_of_step hanswer).trans ((returns_iff_of_step hfail).trans (hx x)))⟩

/-- What is asked of a result: it is not beyond the RAM, the addresses of the
RAM above it are within a word of the RAM's end, and no word of a forbidden
region was written. -/
structure Detected (S r : ℤ) (written : List ℤ) : Prop where
  inside : r ≤ S
  tight : ∀ a, 0 ≤ a → a < S → r < a → S ≤ a + 4
  clear : ∀ a ∈ written, Clear a

/-- **`detect_memory`** ends for every size of the RAM, and it finds the size,
up to the last word, exactly where the RAM does not end in the last 3 MiB
below the end of the forbidden region. -/
theorem detectMemory_exact {S : ℤ} (hlow : 0x100000 < S) (hmib : 0x100000 ∣ S)
    (hS : S ≤ maxMemorySize) :
    ∃ n r written, detectMemory (ram S) n = some (r, written) ∧
      (Detected S r written ↔ S ≤ 0x3fc00000 ∨ 0x3ff00000 ≤ S) := by
  obtain ⟨w, hw, hx⟩ := detectMemory_returns (by omega) hS
  obtain ⟨n, hn⟩ := (hx _).mpr rfl
  refine ⟨n, _, w, hn, ?_⟩
  obtain ⟨c, rfl⟩ := hmib
  unfold detected
  constructor
  · intro h
    have hinside := h.inside
    split at hinside <;> omega
  · intro h
    refine ⟨?_, fun a _ ha => ?_, hw⟩
    · split <;> omega
    · split <;> omega

/-- 512 MiB, which is below the regions.  The search ends there, and with the
right result. -/
theorem detectMemory_exact_half :
    ∃ n r written, detectMemory (ram 0x20000000) n = some (r, written) ∧
      (Detected 0x20000000 r written ↔
        (0x20000000 : ℤ) ≤ 0x3fc00000 ∨ (0x3ff00000 : ℤ) ≤ 0x20000000) :=
  detectMemory_exact (by norm_num) ⟨512, by norm_num⟩ (by unfold maxMemorySize; norm_num)

/-- RAM that ends 1 MiB below the region is reported up to the end of the
region. -/
theorem detectMemory_overreports :
    ¬∃ n r written, detectMemory (ram 0x3fd00000) n = some (r, written) ∧
      Detected 0x3fd00000 r written := by
  rintro ⟨n, r, written, hn, hdet⟩
  obtain ⟨w, -, hx⟩ := detectMemory_returns (S := 0x3fd00000) (by norm_num)
    (by unfold maxMemorySize; norm_num)
  have hr : r = detected 0x3fd00000 := congrArg Prod.fst ((hx (r, written)).mp ⟨n, hn⟩)
  have heq : detected 0x3fd00000 = 0x3fefffff := if_pos (by norm_num)
  have hinside := hdet.inside
  omega

end CourseOs.Memory
