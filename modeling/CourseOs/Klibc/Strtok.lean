import CourseOs.Klibc.Strchrnul
import CourseOs.Lib.ByteMemory
import CourseOs.Lib.Calls
import CourseOs.Lib.Tokens
import Mathlib.Tactic.IntervalCases

/-!
# Cutting a string into tokens

`os_strspn`, `os_strcspn` and `os_strtok` of `klibc/klibc.c`.  `os_strtok`
keeps where it is in a static pointer and cuts the string where it lies: a
token is ended by writing the terminator over the separator behind it.

## Main definitions

* `Tokenizer` — memory, and the static pointer.  One pointer serves all
  callers, so a first call on another string gives up the string that was
  being cut.
* `StringLeft σ hi rest` — what is left of the string that is being cut, up to
  its end `hi`.
* `Cuts σ hi ts n σ' qs` — what `n` calls leave when `ts` are the tokens to
  come: the first of them are found at `qs`, inside the string, and memory
  outside is as it was.

## Main results

* `osStrspn_eq`, `osStrcspn_eq` — the two spans count the characters in front
  that are, and that are not, separators.
* `osStrtok_spec` — one call: null when there is no token left, else the next
  token, a string of its own, with the tokens behind it still to come.
* `os_strtok_tokens` — a first call and the calls with a null pointer behind
  it return the tokens of the string one by one, then the null pointer.

## What is load-bearing

The calls write, so a token found earlier must survive the later ones.  It
does because each call writes at one place, the separator behind its own
token, and every later call works behind that place (`Finds.behind`,
`Finds.frame`).

The separators are read in every call.  They have to lie where no terminator
is written, that is in front of the string or from its terminator on; this is
`hapart`.  The scans count in an `int`, and the model stops where it would
overflow, so both lengths are below 2³¹.
-/

namespace CourseOs

/-- Memory, and the static `p` of `os_strtok`, which outlives the call. -/
structure Tokenizer where
  mem : ByteMemory
  p : ℕ

/-- The most rounds of a loop whose counter is an `int`: the next one would be
past the last value. -/
def intRounds : ℕ := 2 ^ 31

/-- The loop of `os_strspn` over `accept`.  It calls `strlen` in every round
and does not stop at the character it has found. -/
def acceptLoop (m : ByteMemory) (c : UInt8) (accept : ℕ) : ℕ → ℕ → Bool → Exec Bool
  | 0, _, _ => .error .diverged
  | fuel + 1, i, ok =>
      match (strlenScan accept (2 ^ 32) 0).run m with
      | none => .error .diverged
      | some n =>
          if i < n then
            acceptLoop m c accept fuel (i + 1) (if c = m (accept + i) then true else ok)
          else .ok ok

/-- The loop of `os_strcspn` over `reject`: whether it returns from the
function.  `strlen` is called in each round, as in the source. -/
def rejectLoop (m : ByteMemory) (c : UInt8) (reject : ℕ) : ℕ → ℕ → Exec Bool
  | 0, _ => .error .diverged
  | fuel + 1, i =>
      match (strlenScan reject (2 ^ 32) 0).run m with
      | none => .error .diverged
      | some n =>
          if i < n then
            if c = m (reject + i) then .ok true else rejectLoop m c reject fuel (i + 1)
          else .ok false

/-- The loop of `os_strspn` and of `os_strcspn` over `s`, which goes on behind
the characters that pass. -/
def spanLoop (m : ByteMemory) (s : ℕ) (passes : UInt8 → Exec Bool) : ℕ → UInt8 → ℕ → Exec ℕ
  | 0, _, _ => .error .diverged
  | fuel + 1, c, length =>
      if c ≠ 0 then do
        let ok ← passes c
        if ok then spanLoop m s passes fuel (m (s + (length + 1))) (length + 1) else .ok length
      else .ok length

/-- `os_strspn`: how many of the first characters of `s` are in `accept`. -/
def osStrspn (m : ByteMemory) (s accept : ℕ) : Exec ℕ :=
  spanLoop m s (fun c => acceptLoop m c accept intRounds 0 false) intRounds (m s) 0

/-- `os_strcspn`: how many of the first characters of `s` are not in `reject`. -/
def osStrcspn (m : ByteMemory) (s reject : ℕ) : Exec ℕ :=
  spanLoop m s (fun c => do
    let found ← rejectLoop m c reject intRounds 0
    .ok (!found)) intRounds (m s) 0

/-- `os_strtok`.  Separators in front are skipped; if nothing is left the
static pointer becomes null.  Otherwise the next separator is overwritten with
a terminator, and the static pointer goes behind it. -/
def osStrtok (σ : Tokenizer) (s sep : ℕ) : Exec (Tokenizer × ℕ) :=
  let s := if s = 0 then σ.p else s
  if s = 0 then .ok (σ, 0)
  else do
    let n ← osStrspn σ.mem s sep
    let s := s + n
    if σ.mem s = 0 then .ok ({ σ with p := 0 }, 0)
    else do
      let n ← osStrcspn σ.mem s sep
      let p := s + n
      if σ.mem p ≠ 0 then .ok (⟨σ.mem.writeByte p 0, p + 1⟩, s)
      else .ok ({ σ with p := 0 }, s)

/-- A call of `os_strtok`, as a step of a run: the string or null, and the
separators. -/
def strtokCall : ℕ × ℕ → Tokenizer → Exec (Tokenizer × ℕ)
  | (s, sep), σ => osStrtok σ s sep

variable {m : ByteMemory} {σ : Tokenizer} {s q sep hi fuel i n : ℕ} {c : UInt8} {ok : Bool}
  {text rest pre t seps : List UInt8} {passes : UInt8 → Exec Bool} {p : UInt8 → Bool}

/-! ### The spans

`os_strspn` and `os_strcspn` count the characters in front that are, or are
not, in a second string.  Both call `strlen` over and over, on strings that do
not change, and both have a counter that is an `int`; lengths below 2³¹ are
what this takes. -/

/-- `strlen` of a string in memory. -/
theorem run_strlenScan (h : CString m s text) (hfit : s + text.length < 2 ^ 32) :
    (strlenScan s (2 ^ 32) 0).run m = some text.length := by
  have hlast : text.findIdx (· == 0) = text.length := by
    rw [List.findIdx_eq_length]
    intro x hx
    exact beq_eq_false_iff_ne.mpr fun hzero => h.null_notMem (hzero ▸ hx)
  have hstops : Stops m 0 (s + 0) (s + text.length) := by
    have := Stops.of_cString h 0
    rwa [hlast] at this
  have hfuel : s + text.length < s + 0 + 2 ^ 32 := by omega
  rw [(hstops.strlenScan hfuel).1, Nat.add_sub_cancel_left]

theorem contains_drop (hi : i < seps.length) :
    (seps.drop i).contains c = (c == seps[i] || (seps.drop (i + 1)).contains c) := by
  rw [List.drop_eq_getElem_cons hi, List.contains_cons]

theorem acceptLoop_eq (hsep : CString m sep seps) (hfit : sep + seps.length < 2 ^ 32)
    (hi : i ≤ seps.length) (hfuel : seps.length < i + fuel) :
    acceptLoop m c sep fuel i ok = .ok (ok || (seps.drop i).contains c) := by
  induction fuel generalizing i ok with
  | zero => exact absurd hfuel (Nat.not_lt.mpr hi)
  | succ fuel ih =>
      rw [acceptLoop, run_strlenScan hsep hfit]
      dsimp only
      by_cases hlt : i < seps.length
      · rw [if_pos hlt, ih hlt (by omega), contains_drop hlt, hsep.bytes i hlt, ← Bool.or_assoc]
        by_cases hc : c = seps[i]
        · rw [if_pos hc, beq_iff_eq.mpr hc, Bool.or_true]
        · rw [if_neg hc, beq_eq_false_iff_ne.mpr hc, Bool.or_false]
      · rw [if_neg hlt, List.drop_eq_nil_of_le (not_lt.mp hlt), List.contains_nil, Bool.or_false]

theorem rejectLoop_eq (hsep : CString m sep seps) (hfit : sep + seps.length < 2 ^ 32)
    (hi : i ≤ seps.length) (hfuel : seps.length < i + fuel) :
    rejectLoop m c sep fuel i = .ok ((seps.drop i).contains c) := by
  induction fuel generalizing i with
  | zero => exact absurd hfuel (Nat.not_lt.mpr hi)
  | succ fuel ih =>
      rw [rejectLoop, run_strlenScan hsep hfit]
      dsimp only
      by_cases hlt : i < seps.length
      · rw [if_pos hlt, ih hlt (by omega), contains_drop hlt, hsep.bytes i hlt]
        by_cases hc : c = seps[i]
        · rw [if_pos hc, beq_iff_eq.mpr hc, Bool.true_or]
        · rw [if_neg hc, beq_eq_false_iff_ne.mpr hc, Bool.false_or]
      · rw [if_neg hlt, List.drop_eq_nil_of_le (not_lt.mp hlt), List.contains_nil]

/-- The characters in front that pass. -/
theorem spanLoop_eq (hpass : ∀ c, passes c = .ok (p c)) (h : CString m (s + n) rest)
    (hfuel : rest.length < fuel) :
    spanLoop m s passes fuel (m (s + n)) n = .ok (n + (rest.takeWhile p).length) := by
  induction rest generalizing n fuel with
  | nil =>
      obtain ⟨fuel, rfl⟩ := Nat.exists_eq_succ_of_ne_zero (Nat.ne_zero_of_lt hfuel)
      rw [spanLoop, if_neg (not_not.mpr h.head_nil)]
      rfl
  | cons x rest ih =>
      obtain ⟨fuel, rfl⟩ := Nat.exists_eq_succ_of_ne_zero (Nat.ne_zero_of_lt hfuel)
      rw [spanLoop, if_pos h.head_ne, hpass, Exec.ok_bind, h.head, List.takeWhile_cons]
      by_cases hp : p x = true
      · rw [if_pos hp, if_pos hp, ih h.tail (Nat.lt_of_succ_lt_succ hfuel), List.length_cons]
        congr 1
        omega
      · rw [if_neg hp, if_neg hp]
        rfl

theorem osStrspn_eq (h : CString m s rest) (hsep : CString m sep seps)
    (hfit : sep + seps.length < 2 ^ 32) (hseps : seps.length < intRounds)
    (hrest : rest.length < intRounds) :
    osStrspn m s sep = .ok (rest.takeWhile seps.contains).length := by
  have hfuel : seps.length < 0 + intRounds := by rwa [Nat.zero_add]
  have hpass : ∀ c, acceptLoop m c sep intRounds 0 false = .ok (seps.contains c) := by
    intro c
    rw [acceptLoop_eq hsep hfit (Nat.zero_le _) hfuel, Bool.false_or, List.drop_zero]
  have hspan := spanLoop_eq (n := 0) hpass h hrest
  rwa [Nat.zero_add] at hspan

theorem osStrcspn_eq (h : CString m s rest) (hsep : CString m sep seps)
    (hfit : sep + seps.length < 2 ^ 32) (hseps : seps.length < intRounds)
    (hrest : rest.length < intRounds) :
    osStrcspn m s sep = .ok (rest.takeWhile fun c => !seps.contains c).length := by
  have hfuel : seps.length < 0 + intRounds := by rwa [Nat.zero_add]
  have hpass : ∀ c, (do
      let found ← rejectLoop m c sep intRounds 0
      .ok (!found) : Exec Bool) = .ok (!seps.contains c) := by
    intro c
    rw [rejectLoop_eq hsep hfit (Nat.zero_le _) hfuel, List.drop_zero, Exec.ok_bind]
  have hspan := spanLoop_eq (n := 0) hpass h hrest
  rwa [Nat.zero_add] at hspan

/-! ### One call

The tokenizer at work on one string: what is left of it begins at the static
pointer, or it has come to its end.  A call finds the next token and writes at
most one terminator, behind the token, so that what is left behind it is as it
was. -/

open Tokens

/-- What is left of the string up to `hi` is `rest`; after its end, nothing. -/
def StringLeft (σ : Tokenizer) (hi : ℕ) (rest : List UInt8) : Prop :=
  σ.p = 0 ∧ rest = [] ∨ σ.p ≠ 0 ∧ CString σ.mem σ.p rest ∧ σ.p + rest.length = hi

/-- A call that finds the token `t`, with the tokens `ts` still to come.  What
it writes lies between the string that was left and the string that is left. -/
structure Finds (σ : Tokenizer) (q hi : ℕ) (p : UInt8 → Bool) (t : List UInt8)
    (ts : List (List UInt8)) (σ' : Tokenizer) (q' : ℕ) : Prop where
  token : CString σ'.mem q' t
  le : q ≤ q'
  lt : q' < hi
  left : ∃ rest, StringLeft σ' hi rest ∧ tokens p rest = ts
  behind : σ'.p ≠ 0 → q' + t.length < σ'.p
  frame : ∀ x, x < q ∨ hi ≤ x → σ'.mem x = σ.mem x

theorem takeWhile_split {l : List UInt8} (hpre : ∀ x ∈ pre, p x = true)
    (hl : ∀ x ∈ l.head?, p x = false) : (pre ++ l).takeWhile p = pre := by
  rw [List.takeWhile_append_of_pos hpre]
  cases l with
  | nil => exact List.append_nil pre
  | cons x l =>
      rw [List.takeWhile_cons, hl x rfl]
      exact List.append_nil pre

/-- **A call**, with the string left from `q` on: there is no token left and
it returns null, or it returns the next one. -/
theorem osStrtok_spec (hq : q ≠ 0) (h : CString σ.mem q rest) (hsep : CString σ.mem sep seps)
    (hfit : sep + seps.length < 2 ^ 32) (hseps : seps.length < intRounds)
    (hrest : rest.length < intRounds) :
    tokens seps.contains rest = [] ∧ osStrtok σ q sep = .ok ({ σ with p := 0 }, 0) ∨
    ∃ t ts σ' q', tokens seps.contains rest = t :: ts ∧ osStrtok σ q sep = .ok (σ', q') ∧
      Finds σ q (q + rest.length) seps.contains t ts σ' q' := by
  obtain ⟨pre, t, tail, rfl, hpre, ht, hempty, htail⟩ := exists_split seps.contains rest
  have hhead : ∀ x ∈ (t ++ tail).head?, seps.contains x = false := by
    intro x hx
    cases t with
    | nil =>
        rw [hempty rfl] at hx
        cases hx
    | cons y t =>
        cases hx
        exact ht x List.mem_cons_self
  have hspn : osStrspn σ.mem q sep = .ok pre.length := by
    rw [osStrspn_eq h hsep hfit hseps hrest, takeWhile_split hpre hhead]
  have hdrop : CString σ.mem (q + pre.length) (t ++ tail) := h.drop
  have hlen : (t ++ tail).length < intRounds := by
    rw [List.length_append] at hrest
    omega
  rw [tokens_append hpre]
  cases t with
  | nil =>
      have htail := hempty rfl
      subst htail
      refine .inl ⟨rfl, ?_⟩
      unfold osStrtok
      simp only [if_neg hq, hspn, Exec.ok_bind, if_pos hdrop.head_nil]
  | cons y t =>
      have hnonempty : y :: t ≠ [] := List.cons_ne_nil y t
      have hlast : ∀ x ∈ tail.head?, (!seps.contains x) = false := by
        intro x hx
        rw [htail x hx]
        rfl
      have hcspn : osStrcspn σ.mem (q + pre.length) sep = .ok (y :: t).length := by
        rw [osStrcspn_eq hdrop hsep hfit hseps hlen, takeWhile_split ?_ hlast]
        intro x hx
        rw [ht x hx]
        rfl
      have hstop : CString σ.mem (q + pre.length + (y :: t).length) tail := hdrop.drop
      have hstep : osStrtok σ q sep =
          if σ.mem (q + pre.length + (y :: t).length) ≠ 0 then
            .ok (⟨σ.mem.writeByte (q + pre.length + (y :: t).length) 0,
              q + pre.length + (y :: t).length + 1⟩, q + pre.length)
          else .ok ({ σ with p := 0 }, q + pre.length) := by
        conv_lhs => unfold osStrtok
        simp only [if_neg hq, hspn, Exec.ok_bind, hcspn]
        rw [if_neg hdrop.head_ne]
      rw [hstep]
      right
      cases tail with
      | nil =>
          rw [List.append_nil] at hdrop ⊢
          refine ⟨y :: t, [], _, _, tokens_last hnonempty ht,
            if_neg (not_not.mpr hstop.head_nil), ?_⟩
          exact {
            token := hdrop
            le := Nat.le_add_right _ _
            lt := by simp only [List.length_append, List.length_cons]; omega
            left := ⟨[], .inl ⟨rfl, rfl⟩, rfl⟩
            behind := fun hne => absurd rfl hne
            frame := fun x _ => rfl }
      | cons c tail =>
          have hc : seps.contains c = true := htail c rfl
          refine ⟨y :: t, tokens seps.contains tail, _, _, tokens_cons hnonempty ht hc,
            if_pos hstop.head_ne, ?_⟩
          have hother : ∀ x, x ≠ q + pre.length + (y :: t).length →
              (σ.mem.writeByte (q + pre.length + (y :: t).length) 0) x = σ.mem x :=
            fun x hx => ByteMemory.writeByte_apply_of_ne hx
          exact {
            token := hdrop.take (fun x _ hx => hother x (Nat.ne_of_lt hx)) (if_pos rfl)
            le := Nat.le_add_right _ _
            lt := by simp only [List.length_append, List.length_cons]; omega
            left := by
              refine ⟨tail, .inr ⟨Nat.succ_ne_zero _, ?_, ?_⟩, rfl⟩
              · exact hstop.tail.congr fun x hx _ => hother x (by omega)
              · simp only [List.length_append, List.length_cons]
                omega
            behind := fun _ => Nat.lt_succ_self _
            frame := fun x hx => hother x (by
              simp only [List.length_append, List.length_cons] at hx ⊢
              omega) }

/-! ### Runs

The first call is given the string, and the others go on where the one before
stopped.  A token found stays a string of its own to the end of the run, as
all later calls write behind it. -/

/-- A call with the null pointer goes on where the last one stopped. -/
theorem osStrtok_next (hp : σ.p ≠ 0) : osStrtok σ 0 sep = osStrtok σ σ.p sep := by
  unfold osStrtok
  simp only [if_neg hp, if_true]

/-- A call after the end of the string. -/
theorem osStrtok_done (hp : σ.p = 0) : osStrtok σ 0 sep = .ok (σ, 0) := by
  unfold osStrtok
  simp only [hp, if_true]

/-- A call with a string forgets the last one. -/
theorem osStrtok_first (hs : s ≠ 0) : osStrtok σ s sep = osStrtok ⟨σ.mem, s⟩ 0 sep := by
  have hnext : osStrtok ⟨σ.mem, s⟩ 0 sep = osStrtok ⟨σ.mem, s⟩ s sep := osStrtok_next hs
  rw [hnext]
  unfold osStrtok
  simp only [if_neg hs]

/-- The answers to `n` calls of which the first ones found the tokens at `qs`. -/
def tokenAnswers (qs : List ℕ) (n : ℕ) : List ℕ := qs ++ List.replicate (n - qs.length) 0

/-- What `n` calls leave, from a state on in which the string has `ts` tokens
left: the tokens found are strings at the end of the run, also those of the
first calls. -/
structure Cuts (σ : Tokenizer) (hi : ℕ) (ts : List (List UInt8)) (n : ℕ) (σ' : Tokenizer)
    (qs : List ℕ) : Prop where
  found : List.Forall₂ (CString σ'.mem) qs (ts.take n)
  inside : ∀ q ∈ qs, σ.p ≠ 0 ∧ σ.p ≤ q ∧ q < hi
  frame : ∀ x, σ.p = 0 ∨ x < σ.p ∨ hi ≤ x → σ'.mem x = σ.mem x

/-- No token found, and nothing written. -/
theorem Cuts.nothing {ts : List (List UInt8)} {σ' : Tokenizer} (hts : ts.take n = [])
    (hmem : σ'.mem = σ.mem) : Cuts σ hi ts n σ' [] where
  found := by
    rw [hts]
    exact .nil
  inside q hq := absurd hq List.not_mem_nil
  frame x _ := by rw [hmem]

theorem run_done (hp : σ.p = 0) (n : ℕ) :
    Calls.run strtokCall (List.replicate n (0, sep)) σ = .ok (σ, List.replicate n 0) := by
  induction n with
  | zero => rfl
  | succ n ih => exact Calls.run_cons (osStrtok_done hp) ih

/-- **The calls with a null pointer** find the tokens that are left, and null
when there are none.  By induction on the calls, each of which leaves a
shorter string. -/
theorem run_strtok (hleft : StringLeft σ hi rest) (hsep : CString σ.mem sep seps)
    (hfit : sep + seps.length < 2 ^ 32) (hseps : seps.length < intRounds)
    (hrest : rest.length < intRounds)
    (hapart : σ.p = 0 ∨ sep + seps.length < σ.p ∨ hi ≤ sep) (n : ℕ) :
    ∃ σ' qs, Calls.run strtokCall (List.replicate n (0, sep)) σ = .ok (σ', tokenAnswers qs n) ∧
      Cuts σ hi (tokens seps.contains rest) n σ' qs := by
  induction n generalizing σ rest with
  | zero => exact ⟨σ, [], rfl, .nothing rfl rfl⟩
  | succ n ih =>
      rcases hleft with ⟨hp, rfl⟩ | ⟨hp, hstring, rfl⟩
      · exact ⟨σ, [], run_done hp (n + 1), .nothing rfl rfl⟩
      rcases osStrtok_spec hp hstring hsep hfit hseps hrest with
        ⟨hnone, hcall⟩ | ⟨t, ts, σ₁, q, htokens, hcall, hfinds⟩
      · have hlast : Calls.run strtokCall (List.replicate n (0, sep)) { σ with p := 0 } =
            .ok ({ σ with p := 0 }, List.replicate n 0) := run_done rfl n
        rw [hnone]
        exact ⟨{ σ with p := 0 }, [], Calls.run_cons ((osStrtok_next hp).trans hcall) hlast,
          .nothing rfl rfl⟩
      · obtain ⟨rest', hleft', rfl⟩ := hfinds.left
        -- the separators lie outside of what is left of the string
        have hsep' : CString σ₁.mem sep seps :=
          hsep.congr fun x hx hx' => hfinds.frame x (by omega)
        have hp' : σ₁.p = 0 ∨ q + t.length < σ₁.p := by
          by_cases h0 : σ₁.p = 0
          · exact .inl h0
          · exact .inr (hfinds.behind h0)
        have hle := hfinds.le
        have hlen : rest'.length < intRounds := by
          rcases hleft' with ⟨-, rfl⟩ | ⟨hne, -, heq⟩
          · exact Nat.zero_lt_of_lt hrest
          · omega
        have hapart' : σ₁.p = 0 ∨ sep + seps.length < σ₁.p ∨ σ.p + rest.length ≤ sep := by
          omega
        obtain ⟨σ', qs, hrun, hcuts⟩ := ih hleft' hsep' hlen hapart'
        have hanswers : tokenAnswers (q :: qs) (n + 1) = q :: tokenAnswers qs n := by
          unfold tokenAnswers
          rw [List.length_cons, Nat.add_sub_add_right, List.cons_append]
        rw [htokens]
        refine ⟨σ', q :: qs, ?_, ?_, ?_, fun x hx => ?_⟩
        · rw [hanswers]
          exact Calls.run_cons ((osStrtok_next hp).trans hcall) hrun
        · -- the later calls leave the token alone
          refine .cons (hfinds.token.congr fun x hx hx' => hcuts.frame x ?_) hcuts.found
          omega
        · intro q' hq'
          rcases List.mem_cons.mp hq' with rfl | hq'
          · exact ⟨hp, hle, hfinds.lt⟩
          · have hin := hcuts.inside q' hq'
            exact ⟨hp, by omega, hin.2.2⟩
        · rw [hcuts.frame x (by omega), hfinds.frame x (by omega)]

/-- **`os_strtok`** on a string, whatever string it was on before: the first
call and the `n` calls with a null pointer behind it return the first `n + 1`
tokens of the string, and from the end of the tokens on the null pointer.  At
the end each token is a string of its own within the old one, and memory
outside of the old one is as it was.

The separators lie apart from the string, in front of it or from its
terminator on, because the calls write terminators into it; both lengths are
below 2³¹, as the scans count in an `int`. -/
theorem os_strtok_tokens (hs : s ≠ 0) (h : CString σ.mem s text) (hsep : CString σ.mem sep seps)
    (hfit : sep + seps.length < 2 ^ 32) (hseps : seps.length < 2 ^ 31)
    (htext : text.length < 2 ^ 31)
    (hapart : sep + seps.length < s ∨ s + text.length ≤ sep) (n : ℕ) :
    ∃ σ' qs, Calls.run strtokCall ((s, sep) :: List.replicate n (0, sep)) σ =
        .ok (σ', qs ++ List.replicate (n + 1 - qs.length) 0) ∧
      List.Forall₂ (CString σ'.mem) qs ((tokens seps.contains text).take (n + 1)) ∧
      (∀ q ∈ qs, s ≤ q ∧ q < s + text.length) ∧
      ∀ x, x < s ∨ s + text.length ≤ x → σ'.mem x = σ.mem x := by
  have hleft : StringLeft ⟨σ.mem, s⟩ (s + text.length) text := .inr ⟨hs, h, rfl⟩
  obtain ⟨σ', qs, hrun, hcuts⟩ := run_strtok hleft hsep hfit hseps htext (.inr hapart) (n + 1)
  refine ⟨σ', qs, ?_, hcuts.found, fun q hq => (hcuts.inside q hq).2,
    fun x hx => hcuts.frame x (.inr hx)⟩
  have hfirst : strtokCall (s, sep) σ = strtokCall (0, sep) ⟨σ.mem, s⟩ := osStrtok_first hs
  unfold tokenAnswers at hrun
  rw [List.replicate_succ] at hrun
  rw [← hrun]
  unfold Calls.run
  rw [hfirst]

/-- The string `a,,b` at the address 4 and the separator at 16. -/
def commaMemory : ByteMemory where
  byte x := if x = 4 then 97 else if x = 5 then 44 else if x = 6 then 44 else
    if x = 7 then 98 else if x = 16 then 44 else 0

/-- Its two tokens, and a third call, which returns null. -/
theorem os_strtok_tokens_comma : ∃ σ' qs,
    Calls.run strtokCall [(4, 16), (0, 16), (0, 16)] ⟨commaMemory, 0⟩ =
      .ok (σ', qs ++ List.replicate (3 - qs.length) 0) ∧
    List.Forall₂ (CString σ'.mem) qs [[97], [98]] := by
  have htext : CString commaMemory 4 [97, 44, 44, 98] := by
    refine ⟨fun i hi => ?_, rfl, by decide⟩
    change i < 4 at hi
    interval_cases i <;> rfl
  have hseps : CString commaMemory 16 [44] := by
    refine ⟨fun i hi => ?_, rfl, by decide⟩
    change i < 1 at hi
    interval_cases i
    rfl
  obtain ⟨σ', qs, hrun, hfound, -⟩ := os_strtok_tokens (σ := ⟨commaMemory, 0⟩) (by decide) htext
    hseps (by decide) (by decide) (by decide) (by decide) 2
  exact ⟨σ', qs, hrun, hfound⟩

end CourseOs
