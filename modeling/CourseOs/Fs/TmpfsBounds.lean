import CourseOs.Ds.ByteList
import CourseOs.Fs.TmpfsFile
import CourseOs.Lib.Calls

/-!
# Where reads and writes of a tmpfs file go

`tmpfs_read_file` copies `min(count, array->length - f->file_position)` bytes,
in unsigned arithmetic.  A handle past the end of the file makes the
difference wrap, and the read goes on where the file ends.  Writes shorten the
file, so handles get there.

## Main definitions

* `FileOp.Careful` — handles are only moved by reads, writes and resets to 0,
  no handle reads past the end of the file, and every allocation succeeds.
* `WithinCapacity` — every handle stands within the capacity, and the list
  within its block.
* `FileOp.Callable` — a call of any run at all: handles of the file, positions
  in its block.
* `ReadsWithin`, `ReadsSafe` — a read copies bytes of the file only; all reads
  would.
* `FileOp.KeepsReads` — the call leaves no handle past the end of the file.

## Main results

* `writes_within` — writes stay within the block, as long as no handle past
  the end reads.  The invariant is that every handle is within the capacity,
  which each write raises by as much as it writes; a read past the end would
  move its handle behind everything.
* `reads_within_exact` — all reads in a run stay within the file exactly when
  no write ends, and no handle is moved, so as to leave a handle past the end.

Both are about any number of handles on one file.  The second is an
equivalence for runs because `ReadsSafe` speaks about every read that could
come next, so that the state in which a handle is past the end is already the
failure, whether or not that handle reads.
-/

namespace CourseOs.Fs

variable {i d fp p count : ℕ} {s s' : Vfs} {buf : List UInt8} {mem : Option (Block UInt8)}
  {list list' : U8ArrayList} {b : Block UInt8} {positions positions' : ℕ → Option ℕ}
  {op : FileOp} {out : FileOutput}

/-! ### Positions

Handles are a partial map from addresses to positions; a call changes one of
them at most. -/

/-- A change of one handle's position keeps what holds of its new position. -/
theorem forall_position_update {P : ℕ → Prop}
    (h : ∀ q r, q ≠ fp → positions q = some r → P r) (hp : P p) :
    ∀ q r, Function.update positions fp (some p) q = some r → P r := by
  intro q r hq
  by_cases hfp : q = fp
  · rw [hfp, Function.update_self] at hq
    exact Option.some.inj hq ▸ hp
  · rw [Function.update_of_ne hfp] at hq
    exact h q r hfp hq

/-- A handle that is closed is at no position. -/
theorem forall_position_close {P : ℕ → Prop} (h : ∀ q r, positions q = some r → P r) :
    ∀ q r, Function.update positions fp none q = some r → P r := by
  intro q r hq
  by_cases hfp : q = fp
  · rw [hfp, Function.update_self] at hq
    cases hq
  · rw [Function.update_of_ne hfp] at hq
    exact h q r hq

/-! ### Writes

A write makes the capacity larger by its length before it copies, so that a
handle within the capacity writes within the block.  Handles get behind the
end of the file by writes of others, and never behind its capacity. -/

/-- A call of a run in which handles are only moved by reads, writes and
resets to 0, no handle reads past the end of the file, and every allocation
succeeds. -/
def FileOp.Careful (i d : ℕ) : FileOp → Vfs → Prop
  | .open file, s => s.files file = none
  | close fp, s => (s.handlePosition d fp).isSome
  | seek fp position, s => (s.handlePosition d fp).isSome ∧ position = 0
  | read fp _, s => ∃ p, s.handlePosition d fp = some p ∧ p ≤ (s.fileList i).length
  | write mem fp buf, s =>
      (s.handlePosition d fp).isSome ∧ (s.fileList i).capacity + buf.length < 2 ^ 32 ∧
        ∃ new, mem = some new ∧ (s.fileList i).capacity + buf.length ≤ new.size ∧
          new.size < 2 ^ 32

/-- Every handle stands within the capacity of the list, and the list within
its block. -/
structure WithinCapacity (list : U8ArrayList) (positions : ℕ → Option ℕ) : Prop where
  block : ∃ b, list.In b
  position_le : ∀ fp p, positions fp = some p → p ≤ list.capacity

/-- The copy of a write by a handle within the capacity is inside of the
block, and so is the handle afterwards. -/
theorem WithinCapacity.write (h : WithinCapacity (s.fileList i) (s.handlePosition d))
    (hop : (FileOp.write mem fp buf).Careful i d s) :
    ∃ p b', s.handlePosition d fp = some p ∧
      memcpyTo (u8aResize mem (s.fileList i)
        (((s.fileList i).capacity + buf.length) % 2 ^ 32)).array p buf = .ok (some b') ∧
      (p + buf.length) % 2 ^ 32 = p + buf.length ∧
      U8ArrayList.In ⟨p + buf.length, ((s.fileList i).capacity + buf.length) % 2 ^ 32, some b'⟩
        b' := by
  obtain ⟨hopen, hcap, new, rfl, hsize⟩ := hop
  obtain ⟨p, hp⟩ := Option.isSome_iff_exists.mp hopen
  obtain ⟨b, hb⟩ := h.block
  have hle := h.position_le fp p hp
  obtain ⟨-, b', hcopy, hin, -, -⟩ := hb.writeAt hle hcap
    (fun n hn => Option.some.inj hn ▸ hsize) (.inr rfl)
  refine ⟨p, b', hp, hcopy, Nat.mod_eq_of_lt (by omega), ?_⟩
  rw [Nat.mod_eq_of_lt hcap]
  exact hin

/-- **A careful call** returns, and leaves the handles within the capacity,
and the list within its block. -/
theorem careful_step (h : FileAt i d s)
    (hin : WithinCapacity (s.fileList i) (s.handlePosition d)) (hop : op.Careful i d s) :
    ∃ s' out, op.run i s = .ok (s', out) ∧ FileAt i d s' ∧
      WithinCapacity (s'.fileList i) (s'.handlePosition d) := by
  -- it is enough to know the effect
  have hof : ∀ {out list positions},
      FileEffect (s.fileList i) (s.handlePosition d) op out list positions →
      WithinCapacity list positions →
      ∃ s' out, op.run i s = .ok (s', out) ∧ FileAt i d s' ∧
        WithinCapacity (s'.fileList i) (s'.handlePosition d) := by
    intro out list positions he hwithin
    obtain ⟨s', hrun, hfile, hlist, hpositions⟩ := h.run_eq he
    exact ⟨s', out, hrun, hfile, hlist ▸ hpositions ▸ hwithin⟩
  have hother : ∀ {fp}, ∀ q r, q ≠ fp → s.handlePosition d q = some r →
      r ≤ (s.fileList i).capacity := fun q r _ hq => hin.position_le q r hq
  cases op with
  | «open» file =>
      by_cases hfile : file = 0
      · subst hfile
        exact hof .openNull hin
      · exact hof (.open hfile) ⟨hin.block, forall_position_update hother (Nat.zero_le _)⟩
  | close fp =>
      obtain ⟨p, hp⟩ := Option.isSome_iff_exists.mp hop
      exact hof (.close hp) ⟨hin.block, forall_position_close hin.position_le⟩
  | seek fp q =>
      obtain ⟨p, hp⟩ := Option.isSome_iff_exists.mp hop.1
      rw [hop.2] at hof ⊢
      exact hof (.seek hp) ⟨hin.block, forall_position_update hother (Nat.zero_le _)⟩
  | read fp count =>
      obtain ⟨p, hp, hle⟩ := hop
      obtain ⟨b, hb⟩ := hin.block
      refine hof (.read hp (memcpyFrom_file hb hle count))
        ⟨hin.block, forall_position_update hother ?_⟩
      have hend : p + (((s.fileList i).contents.drop p).take count).length
          ≤ (s.fileList i).length := by
        rw [List.length_take, List.length_drop, hb.length_contents]
        omega
      exact Nat.le_trans (Nat.mod_le _ _) (Nat.le_trans hend hb.length_le)
  | write mem fp buf =>
      obtain ⟨p, b', hp, hcopy, hmod, hb'⟩ := hin.write hop
      have he := FileEffect.write hp hcopy
      rw [hmod] at he
      refine hof he ⟨⟨b', hb'⟩, forall_position_update (fun q r hq hr => ?_) hb'.length_le⟩
      have hcap := Nat.mod_eq_of_lt hop.2.1
      exact Nat.le_trans (hother q r hq hr) (hcap.symm ▸ Nat.le_add_right _ _)

/-- **Writes stay within the buffer.**  In every state of a careful run the
handles and the end of the file are within the capacity, the capacity is
within the block, and the next careful write returns and copies into that
block only. -/
theorem writes_within (h : IsFile i d s) (hnew : ∀ fp, s.handlePosition d fp = none)
    (ops : List FileOp) (hops : Calls.Each (FileOp.run i) (FileOp.Careful i d) ops s) :
    ∃ s' outs, Calls.run (FileOp.run i) ops s = .ok (s', outs) ∧
      (s'.fileList i).length ≤ (s'.fileList i).capacity ∧
      (s'.fileList i).capacity ≤ (s'.fileList i).room ∧
      (∀ fp p, s'.handlePosition d fp = some p → p ≤ (s'.fileList i).capacity) ∧
      ∀ mem fp buf, (FileOp.write mem fp buf).Careful i d s' →
        ∃ p s'', s'.handlePosition d fp = some p ∧
          (FileOp.write mem fp buf).run i s' = .ok (s'', .count buf.length) ∧
          p + buf.length ≤ (s''.fileList i).capacity ∧
          (s''.fileList i).capacity ≤ (s''.fileList i).room := by
  have hin : WithinCapacity (s.fileList i) (s.handlePosition d) := by
    refine ⟨h.block, fun fp p hp => ?_⟩
    cases (hnew fp).symm.trans hp
  obtain ⟨s', outs, hrun, hfile, hin⟩ := Calls.invariant
    (I := fun s => FileAt i d s ∧ WithinCapacity (s.fileList i) (s.handlePosition d))
    (fun op s hs hop => careful_step hs.1 hs.2 hop) ⟨h.fileAt, hin⟩ hops
  obtain ⟨b, hb⟩ := hin.block
  refine ⟨s', outs, hrun, hb.length_le, hb.room ▸ hb.capacity_le, hin.position_le, ?_⟩
  intro mem fp buf hop
  obtain ⟨p, b', hp, hcopy, hmod, hb'⟩ := hin.write hop
  obtain ⟨s'', hrun, -, hlist, -⟩ := hfile.run_eq (.write hp hcopy)
  refine ⟨p, s'', hp, hrun, ?_, ?_⟩
  · rw [hlist]
    exact hb'.length_le
  · rw [hlist]
    exact hb'.capacity_le

/-- The run theorem, of a handle that reads what another wrote and of a write
after a reset, which cuts the file off. -/
theorem writes_within_two_handles : ∃ s s' outs, createdFile = .ok s ∧
    Calls.run (FileOp.run 4) [.open 5, .open 6, .write (some ⟨18, fun _ => 0⟩) 5 [1, 2],
      .read 6 1, .seek 5 0, .write (some ⟨19, fun _ => 0⟩) 5 [3]] s = .ok (s', outs) ∧
    ∀ fp p, s'.handlePosition 3 fp = some p → p ≤ (s'.fileList 4).capacity := by
  obtain ⟨s, hs, hagree⟩ := createdFile_agrees
  have hops : Calls.Each (FileOp.run 4) (FileOp.Careful 4 3) [.open 5, .open 6,
      .write (some ⟨18, fun _ => 0⟩) 5 [1, 2], .read 6 1, .seek 5 0,
      .write (some ⟨19, fun _ => 0⟩) 5 [3]] s := by
    cases hs
    refine ⟨rfl, ?_⟩
    rintro s₁ out ⟨⟩
    refine ⟨rfl, ?_⟩
    rintro s₂ out ⟨⟩
    refine ⟨⟨rfl, by decide, _, rfl, by decide, by decide⟩, ?_⟩
    rintro s₃ out ⟨⟩
    refine ⟨⟨0, rfl, by decide⟩, ?_⟩
    rintro s₄ out ⟨⟩
    refine ⟨⟨rfl, rfl⟩, ?_⟩
    rintro s₅ out ⟨⟩
    exact ⟨⟨rfl, by decide, _, rfl, by decide, by decide⟩, fun _ _ _ => trivial⟩
  have hnew : ∀ fp, s.handlePosition 3 fp = none := fun fp => congrFun hagree.position fp
  obtain ⟨s', outs, hrun, -, -, hposition, -⟩ := writes_within hagree.toIsFile hnew _ hops
  exact ⟨s, s', outs, hs, hrun, hposition⟩

/-! ### Reads

The read is right as long as no handle is past the end.  Writes move the end
to where they stop, and this is how a call can leave another handle behind it;
the next read through that handle is then wrong, unless the end has moved on
in between. -/

/-- A call of any run.  A handle may be moved to any place in the file's
block: it holds all positions a handle has been at (`Backed.effect`).  The
buffer of a write is in memory beside the block, and a new block is as large
as was asked for. -/
def FileOp.Callable (i d : ℕ) : FileOp → Vfs → Prop
  | .open file, s => s.files file = none
  | close fp, s => (s.handlePosition d fp).isSome
  | seek fp position, s => (s.handlePosition d fp).isSome ∧ position ≤ (s.fileList i).room
  | read fp _, s => (s.handlePosition d fp).isSome
  | write mem fp buf, s =>
      (s.handlePosition d fp).isSome ∧
        max (s.fileList i).capacity (s.fileList i).room + buf.length < 2 ^ 32 ∧
        ∀ new, mem = some new →
          (s.fileList i).capacity + buf.length ≤ new.size ∧ new.size < 2 ^ 32

theorem FileOp.Callable.onHandle (h : op.Callable i d s) : op.OnHandle d s := by
  cases op with
  | «open» file => trivial
  | close fp => exact h
  | seek fp q => exact h.1
  | read fp count => exact h
  | write mem fp buf => exact h.1

/-- The read copies bytes of the file only, none from the end of the file on,
and the difference of length and position does not wrap. -/
def ReadsWithin (i d : ℕ) (s : Vfs) (fp count : ℕ) : Prop :=
  ∃ p s' buf, s.handlePosition d fp = some p ∧ tmpfsReadFile s fp count = .ok (s', buf) ∧
    (∀ k < buf.length, p + k < (s.fileList i).length) ∧
    ((s.fileList i).length ≤ p → buf = []) ∧
    p + sub32 (s.fileList i).length p = (s.fileList i).length

/-- Whichever handle reads next, and however much, reads within the file. -/
def ReadsSafe (i d : ℕ) (s : Vfs) : Prop :=
  ∀ fp p count, s.handlePosition d fp = some p → ReadsWithin i d s fp count

/-- The call leaves no handle past the end of the file.  A write moves the end
to its own position, so that it must not be in front of the other handles. -/
def FileOp.KeepsReads (i d : ℕ) : FileOp → Vfs → Prop
  | seek _ position, s => position ≤ (s.fileList i).length
  | write _ fp buf, s => ∀ q r, q ≠ fp → s.handlePosition d q = some r →
      r ≤ (s.handlePosition d fp).getD 0 + buf.length
  | _, _ => True

/-- What holds in every run: the file and its handles are within its block, if
it has one; if it has none, its length and all positions are 0. -/
structure Backed (list : U8ArrayList) (positions : ℕ → Option ℕ) : Prop where
  capacity_pos : 0 < list.capacity
  block : list.array = none ∨ ∃ b, list.array = some b ∧ list.capacity ≤ b.size ∧ b.size < 2 ^ 32
  length_le : list.length ≤ list.room
  position_le : ∀ fp p, positions fp = some p → p ≤ list.room

theorem Backed.room_lt (h : Backed list positions) : list.room < 2 ^ 32 := by
  rcases h.block with harray | ⟨b, harray, -, hlt⟩
  · rw [U8ArrayList.room_of_none harray]
    decide
  · rwa [U8ArrayList.room_of_some harray]

/-- A copy out of the block is within it. -/
theorem memcpyFrom_ok (h : memcpyFrom list.array p count = .ok buf) :
    buf.length = count ∧ (count = 0 ∨ p + count ≤ list.room) := by
  by_cases hcount : count = 0
  · subst hcount
    cases h
    exact ⟨rfl, .inl rfl⟩
  · unfold memcpyFrom at h
    rw [if_neg hcount] at h
    cases harray : list.array with
    | none =>
        rw [harray] at h
        cases h
    | some b =>
        rw [harray] at h
        by_cases hle : p + count ≤ b.size
        · cases (if_pos hle).symm.trans h
          rw [List.length_map, List.length_range, U8ArrayList.room_of_some harray]
          exact ⟨rfl, .inr hle⟩
        · cases (if_neg hle).symm.trans h

/-- A copy within the block returns. -/
theorem memcpyFrom_of_le (h : p + count ≤ list.room) :
    ∃ buf, memcpyFrom list.array p count = .ok buf ∧ buf.length = count := by
  cases harray : list.array with
  | none =>
      rw [U8ArrayList.room_of_none harray] at h
      obtain rfl : count = 0 := by omega
      exact ⟨[], rfl, rfl⟩
  | some b =>
      rw [U8ArrayList.room_of_some harray] at h
      refine ⟨_, memcpyFrom_some h, ?_⟩
      rw [List.length_map, List.length_range]

/-- A read is within the file exactly when its handle is: below the length the
difference of the two does not wrap. -/
theorem readsWithin_iff (h : FileAt i d s) (hb : Backed (s.fileList i) (s.handlePosition d))
    (hp : s.handlePosition d fp = some p) :
    ReadsWithin i d s fp count ↔ p ≤ (s.fileList i).length := by
  have hlen := hb.length_le
  have hroom := hb.room_lt
  constructor
  · rintro ⟨p', s', buf, hp', -, -, -, hwrap⟩
    obtain rfl : p = p' := Option.some.inj (hp.symm.trans hp')
    exact hwrap ▸ Nat.le_add_right _ _
  · intro hle
    obtain ⟨f, hf, hd, rfl, -⟩ := h.handle hp
    have hcount := readCount_eq hle (by omega) count
    obtain ⟨buf, hbuf, hlength⟩ := memcpyFrom_of_le
      (show f.filePosition + readCount (s.fileList i) f.filePosition count
        ≤ (s.fileList i).room by omega)
    have hread := h.read_eq hf hd count
    rw [hbuf] at hread
    refine ⟨f.filePosition, _, buf, hp, hread, ?_, ?_, ?_⟩
    · intro k hk
      omega
    · intro hend
      apply List.eq_nil_of_length_eq_zero
      omega
    · rw [sub32_of_le hle (by omega)]
      omega

theorem readsSafe_iff (h : FileAt i d s) (hb : Backed (s.fileList i) (s.handlePosition d)) :
    ReadsSafe i d s ↔ ∀ fp p, s.handlePosition d fp = some p → p ≤ (s.fileList i).length :=
  ⟨fun hsafe fp p hp => (readsWithin_iff h hb hp).mp (hsafe fp p 0 hp),
    fun hle fp p _ hp => (readsWithin_iff h hb hp).mpr (hle fp p hp)⟩

/-- Only an empty copy goes to no block. -/
theorem memcpyTo_none {block : Option (Block UInt8)} (h : memcpyTo none p buf = .ok block) :
    buf.length = 0 ∧ block = none := by
  by_cases hnil : buf.length = 0
  · cases (if_pos hnil).symm.trans h
    exact ⟨hnil, rfl⟩
  · cases (if_neg hnil).symm.trans h

/-- A copy into a block is within it. -/
theorem memcpyTo_ok {block : Option (Block UInt8)} (h : memcpyTo (some b) p buf = .ok block) :
    ∃ b', block = some b' ∧ b'.size = b.size ∧ (buf.length = 0 ∨ p + buf.length ≤ b.size) := by
  by_cases hnil : buf.length = 0
  · cases (if_pos hnil).symm.trans h
    exact ⟨b, rfl, rfl, .inl hnil⟩
  · have h := (if_neg hnil).symm.trans h
    by_cases hle : p + buf.length ≤ b.size
    · cases (if_pos hle).symm.trans h
      exact ⟨_, rfl, rfl, .inr hle⟩
    · cases (if_neg hle).symm.trans h

/-- The list after a write that returns: its block is no smaller, and holds
the write.  A write of nothing may leave the list without a block. -/
theorem Backed.write (h : Backed list positions) (hp : p ≤ list.room)
    (hmem : ∀ new, mem = some new → list.capacity + buf.length ≤ new.size ∧ new.size < 2 ^ 32)
    {block : Option (Block UInt8)}
    (hcopy : memcpyTo (u8aResize mem list (list.capacity + buf.length)).array p buf = .ok block)
    (hlist : list' = ⟨p + buf.length, list.capacity + buf.length, block⟩) :
    list.room ≤ list'.room ∧ p + buf.length ≤ list'.room ∧
      (list'.array = none ∨
        ∃ b, list'.array = some b ∧ list'.capacity ≤ b.size ∧ b.size < 2 ^ 32) := by
  have hpos := h.capacity_pos
  -- what follows for a block that the copy is made to
  have hof : ∀ b₁ : Block UInt8, memcpyTo (some b₁) p buf = .ok block → list.room ≤ b₁.size →
      list.capacity + buf.length ≤ b₁.size → b₁.size < 2 ^ 32 →
      list.room ≤ list'.room ∧ p + buf.length ≤ list'.room ∧
        (list'.array = none ∨
          ∃ b, list'.array = some b ∧ list'.capacity ≤ b.size ∧ b.size < 2 ^ 32) := by
    intro b₁ hcopy hroom hcap hlt
    obtain ⟨b', rfl, hsize, hend⟩ := memcpyTo_ok hcopy
    have hroom' : list'.room = b'.size := by rw [hlist]; rfl
    refine ⟨by omega, by omega, .inr ⟨b', by rw [hlist], ?_, by omega⟩⟩
    rw [hlist, hsize]
    exact hcap
  rcases h.block with harray | ⟨b, harray, hcap, hlt⟩
  · have hnew : (u8aResize mem list (list.capacity + buf.length)).array = mem := by
      unfold u8aResize
      rw [harray]
      rfl
    have hroom := U8ArrayList.room_of_none harray
    rw [hnew] at hcopy
    cases mem with
    | some new => exact hof new hcopy (by omega) (hmem new rfl).1 (hmem new rfl).2
    | none =>
        obtain ⟨hnil, rfl⟩ := memcpyTo_none hcopy
        have hroom' : list'.room = 0 := by rw [hlist]; rfl
        exact ⟨by omega, by omega, .inl (by rw [hlist])⟩
  · have hroom := U8ArrayList.room_of_some harray
    have hnew : (u8aResize mem list (list.capacity + buf.length)).array =
        krealloc 1 mem (some b) (list.capacity + buf.length) := by rw [← harray]; rfl
    rw [hnew] at hcopy
    by_cases hle : list.capacity + buf.length ≤ b.size
    · have hsame : krealloc 1 mem (some b) (list.capacity + buf.length) = some b :=
        (if_neg (by omega)).trans (if_pos hle)
      rw [hsame] at hcopy
      exact hof b hcopy (by omega) hle hlt
    · have hmoved : krealloc 1 mem (some b) (list.capacity + buf.length) = mem.map _ :=
        (if_neg (by omega)).trans (if_neg hle)
      rw [hmoved] at hcopy
      cases mem with
      | some new =>
          obtain ⟨hgrant, hnewlt⟩ := hmem new rfl
          exact hof _ hcopy (show list.room ≤ new.size by omega) hgrant hnewlt
      | none =>
          obtain ⟨hnil, -⟩ := memcpyTo_none hcopy
          omega

/-- **Each call** leaves the file and its handles within its block, which
never shrinks.  A write asks for more than it writes, and the handles that did
not move were within the smaller block. -/
theorem Backed.effect (h : Backed (s.fileList i) (s.handlePosition d)) (hop : op.Callable i d s)
    (he : FileEffect (s.fileList i) (s.handlePosition d) op out list' positions') :
    Backed list' positions' ∧ (s.fileList i).room ≤ list'.room := by
  have hother : ∀ {fp}, ∀ q r, q ≠ fp → s.handlePosition d q = some r →
      r ≤ (s.fileList i).room := fun q r _ hq => h.position_le q r hq
  cases he with
  | openNull => exact ⟨h, Nat.le_refl _⟩
  | «open» hfile =>
      exact ⟨⟨h.capacity_pos, h.block, h.length_le,
        forall_position_update hother (Nat.zero_le _)⟩, Nat.le_refl _⟩
  | close hp =>
      exact ⟨⟨h.capacity_pos, h.block, h.length_le, forall_position_close h.position_le⟩,
        Nat.le_refl _⟩
  | seek hp =>
      exact ⟨⟨h.capacity_pos, h.block, h.length_le, forall_position_update hother hop.2⟩,
        Nat.le_refl _⟩
  | read hp hbuf =>
      obtain ⟨hlength, hend⟩ := memcpyFrom_ok hbuf
      have hle := h.position_le _ _ hp
      refine ⟨⟨h.capacity_pos, h.block, h.length_le,
        forall_position_update hother (Nat.le_trans (Nat.mod_le _ _) ?_)⟩, Nat.le_refl _⟩
      omega
  | @write mem block fp p buf hp hcopy =>
      obtain ⟨-, hbounds, hmem⟩ := hop
      have hcap : (s.fileList i).capacity + buf.length < 2 ^ 32 := by omega
      have hmod : (p + buf.length) % 2 ^ 32 = p + buf.length :=
        Nat.mod_eq_of_lt (by have := h.position_le _ _ hp; omega)
      rw [Nat.mod_eq_of_lt hcap] at hcopy
      rw [Nat.mod_eq_of_lt hcap, hmod]
      obtain ⟨hroom, hend, hblock⟩ := h.write (h.position_le _ _ hp) hmem hcopy rfl
      refine ⟨⟨Nat.add_pos_left h.capacity_pos _, hblock, hend, forall_position_update ?_ hend⟩,
        hroom⟩
      intro q r hq hr
      exact Nat.le_trans (h.position_le q r hr) hroom

/-- **Each call** of a state in which reads are safe leaves such a state
exactly when it leaves no handle past the end of the file; and the invariant
`Backed` in any case. -/
theorem readsSafe_step (h : FileAt i d s) (hb : Backed (s.fileList i) (s.handlePosition d))
    (hop : op.Callable i d s) (hsafe : ReadsSafe i d s) (hrun : op.run i s = .ok (s', out)) :
    FileAt i d s' ∧ Backed (s'.fileList i) (s'.handlePosition d) ∧
      (ReadsSafe i d s' ↔ op.KeepsReads i d s) := by
  obtain ⟨h', he⟩ := h.effect_of_run hop.onHandle hrun
  obtain ⟨hb', -⟩ := hb.effect hop he
  refine ⟨h', hb', ?_⟩
  rw [readsSafe_iff h' hb']
  have hle := (readsSafe_iff h hb).mp hsafe
  have hother : ∀ {fp}, ∀ q r, q ≠ fp → s.handlePosition d q = some r →
      r ≤ (s.fileList i).length := fun q r _ hq => hle q r hq
  generalize s'.fileList i = list' at he hb' ⊢
  generalize s'.handlePosition d = positions' at he hb' ⊢
  cases he with
  | openNull => exact iff_of_true hle trivial
  | «open» hfile => exact iff_of_true (forall_position_update hother (Nat.zero_le _)) trivial
  | close hp => exact iff_of_true (forall_position_close hle) trivial
  | @seek fp p q hp =>
      exact ⟨fun hall => hall fp q (Function.update_self ..),
        fun hq => forall_position_update hother hq⟩
  | @read fp p count buf hp hbuf =>
      refine iff_of_true (forall_position_update hother ?_) trivial
      obtain ⟨hlength, -⟩ := memcpyFrom_ok hbuf
      have hlen := hb.length_le
      have hroom := hb.room_lt
      have hcount := readCount_eq (hle fp p hp) (by omega) count
      exact Nat.le_trans (Nat.mod_le _ _) (by have := hle fp p hp; omega)
  | @write mem block fp p buf hp hcopy =>
      obtain ⟨-, hbounds, -⟩ := hop
      have hmod : (p + buf.length) % 2 ^ 32 = p + buf.length :=
        Nat.mod_eq_of_lt (by have := hb.position_le _ _ hp; omega)
      show (∀ q r, Function.update (s.handlePosition d) fp (some ((p + buf.length) % 2 ^ 32)) q
          = some r → r ≤ (p + buf.length) % 2 ^ 32) ↔
        ∀ q r, q ≠ fp → s.handlePosition d q = some r →
          r ≤ (s.handlePosition d fp).getD 0 + buf.length
      rw [hmod, hp, Option.getD_some]
      constructor
      · intro hall q r hq hr
        exact hall q r ((Function.update_of_ne hq ..).trans hr)
      · intro hall
        exact forall_position_update hall (Nat.le_refl _)

/-- **Reads of a run stay within the file** exactly when no call of it that
returns leaves a handle past the end: no write ends before the position of
another handle, and no handle is moved past the end. -/
theorem reads_within_exact (h : FileAt i d s)
    (hb : Backed (s.fileList i) (s.handlePosition d))
    (hnew : ∀ fp, s.handlePosition d fp = none) (ops : List FileOp)
    (hops : Calls.Each (FileOp.run i) (FileOp.Callable i d) ops s) :
    Calls.States (FileOp.run i) (ReadsSafe i d) ops s ↔
      Calls.Each (FileOp.run i)
        (fun op s => (∃ r, op.run i s = .ok r) → op.KeepsReads i d s) ops s := by
  have hsafe : ReadsSafe i d s := by
    intro fp p count hp
    cases (hnew fp).symm.trans hp
  refine Calls.states_iff
    (I := fun s => FileAt i d s ∧ Backed (s.fileList i) (s.handlePosition d)) ?_ ⟨h, hb⟩ hsafe hops
  intro op s s' out hs hsafe hop hrun
  obtain ⟨h', hb', hiff⟩ := readsSafe_step hs.1 hs.2 hop hsafe hrun
  exact ⟨⟨h', hb'⟩, hiff⟩

/-- A file that has its block and no handle yet. -/
theorem IsFile.backed (h : IsFile i d s) (hnew : ∀ fp, s.handlePosition d fp = none) :
    Backed (s.fileList i) (s.handlePosition d) := by
  obtain ⟨b, hb⟩ := h.block
  have hroom := hb.room
  refine ⟨hb.capacity_pos, .inr ⟨b, hb.array, hb.capacity_le, hb.size_lt⟩, ?_, fun fp p hp => ?_⟩
  · exact hroom ▸ Nat.le_trans hb.length_le hb.capacity_le
  · cases (hnew fp).symm.trans hp

/-- The run theorem, of a handle that writes two bytes and of another that is
opened. -/
theorem reads_within_exact_two_handles : ∃ s, createdFile = .ok s ∧
    Calls.States (FileOp.run 4) (ReadsSafe 4 3)
      [.open 5, .write (some ⟨18, fun _ => 0⟩) 5 [1, 2], .open 6] s := by
  obtain ⟨s, hs, hagree⟩ := createdFile_agrees
  have hnew : ∀ fp, s.handlePosition 3 fp = none := fun fp => congrFun hagree.position fp
  have hiff := reads_within_exact hagree.fileAt (hagree.backed hnew) hnew
    [.open 5, .write (some ⟨18, fun _ => 0⟩) 5 [1, 2], .open 6]
  refine ⟨s, hs, (hiff ?_).mpr ?_⟩
  · cases hs
    refine ⟨rfl, ?_⟩
    rintro s₁ out ⟨⟩
    refine ⟨⟨rfl, by decide, ?_⟩, ?_⟩
    · rintro new ⟨⟩
      exact ⟨by decide, by decide⟩
    rintro s₂ out ⟨⟩
    exact ⟨rfl, fun _ _ _ => trivial⟩
  · cases hs
    refine ⟨fun _ => trivial, ?_⟩
    rintro s₁ out ⟨⟩
    refine ⟨fun _ q r hq hr => ?_, fun s₂ out _ => ⟨fun _ => trivial, fun _ _ _ => trivial⟩⟩
    obtain ⟨f, hf, -, -⟩ := Vfs.handlePosition_eq_some.mp hr
    cases (Vfs.putFile_of_ne _ hq).symm.trans hf

/-- **A read past the end.**  Two bytes are written through one handle and
then one byte through another: the file ends at 1, the first handle stands at
2, and its read of four bytes returns the four bytes after the end of the
file. -/
theorem read_wraps : ∃ s s' s'' outs, createdFile = .ok s ∧
    Calls.run (FileOp.run 4) [.open 5, .open 6, .write (some ⟨18, fun _ => 0⟩) 5 [1, 2],
      .write (some ⟨19, fun _ => 0⟩) 6 [3]] s = .ok (s', outs) ∧
    s'.handlePosition 3 5 = some 2 ∧ (s'.fileList 4).length = 1 ∧
    sub32 (s'.fileList 4).length 2 = 2 ^ 32 - 1 ∧
    tmpfsReadFile s' 5 4 = .ok (s'', [0, 0, 0, 0]) ∧ ¬ReadsWithin 4 3 s' 5 4 := by
  refine ⟨_, _, _, _, rfl, rfl, rfl, rfl, rfl, rfl, ?_⟩
  rintro ⟨p, s', buf, hp, hread, -, hend, -⟩
  cases hp
  cases hread
  cases hend (by decide)

end CourseOs.Fs
