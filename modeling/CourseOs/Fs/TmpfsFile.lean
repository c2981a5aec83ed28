import CourseOs.Fs.Tmpfs
import CourseOs.Lib.Calls
import CourseOs.Lib.SharedFile

/-!
# A tmpfs file and its handles

One file (inode `i`, entry `d`) and the `File` structures open on it, against
`SharedFile`.  The calls are `open`, `close`, `read`, `write` and the
assignment of a handle's `file_position`, which the source leaves to the code
that uses the handle.

`tmpfs_write_file` makes the file as long as the handle's new position.
`FileOp.Fits` is the condition on a write that this is the length the file
should have, and that there is memory to grow by.

## Main definitions

* `FileAt i d s` — the inode is a file's, with its entry; whatever is in it.
* `Agrees i d s A` — the file's bytes and its handles are those of the
  reference `A`.
* `FileOp.Allowed` — handles that are open, positions within the file, room in
  memory.
* `FileOp.Fits` — the write ends at or past the end of the file, and there is
  a block for what it adds to the capacity.

## Main results

* `FileAt.run_eq`, `FileAt.effect_of_run` — what a call does, as the relation
  `FileEffect` on the file's list and the positions of its handles.  A call
  has an effect exactly when it returns.
* `faithful_iff_fits` — a call does what it does on the reference exactly when
  it fits.
* `file_faithful` — a run of calls that fit returns what the reference
  returns, and in each state of such a run the condition is exact for any
  further call.

The last is an equivalence in every state reached, and not only along one run:
the call that does not fit may come at any point, and from there on the file
and its reference differ, so that nothing is said about what comes behind it.
-/

namespace CourseOs.Fs

variable {i d fp p : ℕ} {s s' : Vfs} {A : SharedFile ℕ UInt8} {buf : List UInt8}
  {mem : Option (Block UInt8)} {list : U8ArrayList} {b : Block UInt8} {n : TmpfsInode} {f : File}

/-! ### The file in the file system

A file seen from outside: its bytes, and the position of each handle that is
open on it.  `FileEffect` says what a call does to these two, without a word
about blocks and addresses, and everything said about a file from here on is
said about effects. -/

/-- The bytes of inode `i`; none when it is not a file's. -/
def Vfs.fileList (s : Vfs) (i : ℕ) : U8ArrayList :=
  match s.inodes i with
  | some ⟨_, _, _, _, _, _, .filedata list⟩ => list
  | _ => ⟨0, 0, none⟩

/-- Where handle `fp` stands, if it is open on the entry `d`. -/
def Vfs.handlePosition (s : Vfs) (d fp : ℕ) : Option ℕ :=
  match s.files fp with
  | some f => if f.dentry = d then some f.filePosition else none
  | none => none

/-- The inode at `i` is a file's, with the entry at `d`, and the two lead to
each other. -/
structure IsFile (i d : ℕ) (s : Vfs) : Prop where
  inode_ne : i ≠ 0
  entry_ne : d ≠ 0
  inode : ∃ n, s.inodes i = some n ∧ n.data = .filedata (s.fileList i) ∧ n.direntry = d
  entry : ∃ e, s.dentries d = some e ∧ e.inode = i
  block : ∃ b, (s.fileList i).In b
  files_null : s.files 0 = none

/-- The file is the one of the reference: the same bytes, the same handles at
the same positions, and none of them past the end. -/
structure Agrees (i d : ℕ) (s : Vfs) (A : SharedFile ℕ UInt8) : Prop extends IsFile i d s where
  contents : (s.fileList i).contents = A.contents
  position : s.handlePosition d = A.position
  bounded : A.Bounded

/-- A call on the file or one of its handles.  An `open` comes with the
address of the new handle, a null one if there is no memory. -/
inductive FileOp
  | open (file : ℕ)
  | close (fp : ℕ)
  | seek (fp position : ℕ)
  | read (fp count : ℕ)
  | write (mem : Option (Block UInt8)) (fp : ℕ) (buf : List UInt8)

/-- What a call returns.  A seek returns nothing, since it is an assignment in
the source. -/
inductive FileOutput
  | done
  | handle (fp : ℕ)
  | bytes (buf : List UInt8)
  | count (n : ℕ)
  deriving DecidableEq

namespace FileOp

/-- The call.  A handle's position is assigned by the code that uses it, as
there is no routine for it. -/
def run (i : ℕ) : FileOp → Vfs → Exec (Vfs × FileOutput)
  | .open file, s => do
      let (s, fp, _) ← tmpfsOpenFile file s i .ok
      .ok (s, .handle fp)
  | close fp, s => do
      let s ← tmpfsCloseFile s fp
      .ok (s, .done)
  | seek fp position, s => do
      let f ← s.file fp
      .ok (s.putFile fp { f with filePosition := position }, .done)
  | read fp count, s => do
      let (s, buf) ← tmpfsReadFile s fp count
      .ok (s, .bytes buf)
  | write mem fp buf, s => do
      let (s, count) ← tmpfsWriteFile mem s fp buf
      .ok (s, .count count)

/-- The call on the reference: contents, and a position for each handle.  A
read and a write are those of a file of unbounded size. -/
def reference : FileOp → SharedFile ℕ UInt8 → SharedFile ℕ UInt8 × FileOutput
  | .open file, A => (if file = 0 then A else A.moveTo file 0, .handle file)
  | close fp, A => (A.close fp, .done)
  | seek fp position, A => (A.moveTo fp position, .done)
  | read fp count, A =>
      let p := (A.position fp).getD 0
      (A.read fp p count, .bytes (A.bytesAt p count))
  | write _ fp buf, A => (A.write fp ((A.position fp).getD 0) buf, .count buf.length)

/-- When the call may be made: on a handle of the file, with a position within
it, and a buffer that is in memory beside the file's block.  A new handle is
at a new address, and a new block is as large as was asked for. -/
def Allowed (i d : ℕ) : FileOp → Vfs → Prop
  | .open file, s => s.files file = none
  | close fp, s => (s.handlePosition d fp).isSome
  | seek fp position, s =>
      (s.handlePosition d fp).isSome ∧ position ≤ (s.fileList i).length
  | read fp _, s => (s.handlePosition d fp).isSome
  | write mem fp buf, s =>
      (s.handlePosition d fp).isSome ∧ (s.fileList i).room + buf.length < 2 ^ 32 ∧
        ∀ new, mem = some new →
          (s.fileList i).capacity + buf.length ≤ new.size ∧ new.size < 2 ^ 32

/-- The call leaves the file as long as it should be: a write ends at or past
the end of the file, and there is a block for what it adds to the capacity.
Other calls always do. -/
def Fits (i d : ℕ) : FileOp → Vfs → Prop
  | write mem fp buf, s =>
      (s.fileList i).length ≤ (s.handlePosition d fp).getD 0 + buf.length ∧
        ((s.fileList i).capacity + buf.length ≤ (s.fileList i).room ∨ mem.isSome)
  | _, _ => True

/-- The call does what it does on the reference. -/
def Faithful (i d : ℕ) (op : FileOp) (s : Vfs) (A : SharedFile ℕ UInt8) : Prop :=
  ∃ s', op.run i s = .ok (s', (op.reference A).2) ∧ Agrees i d s' (op.reference A).1

end FileOp

theorem Vfs.fileList_eq (h : s.inodes i = some n) (hdata : n.data = .filedata list) :
    s.fileList i = list := by
  obtain ⟨_, _, _, _, _, _, data⟩ := n
  subst hdata
  unfold Vfs.fileList
  rw [h]

theorem Vfs.handlePosition_eq_some :
    s.handlePosition d fp = some p ↔
      ∃ f, s.files fp = some f ∧ f.dentry = d ∧ f.filePosition = p := by
  unfold Vfs.handlePosition
  cases s.files fp with
  | none => exact ⟨nofun, nofun⟩
  | some f =>
      constructor
      · intro h
        by_cases hf : f.dentry = d
        · exact ⟨f, rfl, hf, Option.some.inj ((if_pos hf).symm.trans h)⟩
        · cases (if_neg hf).symm.trans h
      · rintro ⟨f', hf', hd, rfl⟩
        cases hf'
        exact if_pos hd

theorem Vfs.handlePosition_putFile (hf : f.dentry = d) :
    (s.putFile fp f).handlePosition d =
      Function.update (s.handlePosition d) fp (some f.filePosition) := by
  funext q
  by_cases hq : q = fp
  · rw [hq, Function.update_self]
    exact handlePosition_eq_some.mpr ⟨f, s.putFile_self fp f, hf, rfl⟩
  · rw [Function.update_of_ne hq]
    unfold handlePosition
    rw [putFile_of_ne f hq]

theorem Vfs.handlePosition_close :
    ({ s with files := Function.update s.files fp none } : Vfs).handlePosition d =
      Function.update (s.handlePosition d) fp none := by
  funext q
  by_cases hq : q = fp
  · rw [hq, Function.update_self]
    unfold handlePosition
    dsimp only
    rw [Function.update_self]
  · rw [Function.update_of_ne hq]
    unfold handlePosition
    dsimp only
    rw [Function.update_of_ne hq]

/-- The inode at `i` is a file's, with the entry at `d`, whatever is in it.
This much stays true when a write has gone wrong. -/
structure FileAt (i d : ℕ) (s : Vfs) : Prop where
  inode_ne : i ≠ 0
  entry_ne : d ≠ 0
  inode : ∃ n, s.inodes i = some n ∧ n.data = .filedata (s.fileList i) ∧ n.direntry = d
  entry : ∃ e, s.dentries d = some e ∧ e.inode = i
  files_null : s.files 0 = none

theorem IsFile.fileAt (h : IsFile i d s) : FileAt i d s :=
  ⟨h.inode_ne, h.entry_ne, h.inode, h.entry, h.files_null⟩

namespace FileAt

/-- An open handle leads to the file. -/
theorem filedata_eq (h : FileAt i d s) (hf : f.dentry = d) (hn : s.inodes i = some n)
    (hdata : n.data = .filedata (s.fileList i)) : filedata s f = .ok (i, n, s.fileList i) := by
  obtain ⟨e, he, hei⟩ := h.entry
  have hd : s.dentry f.dentry = .ok e := Vfs.fetch_eq (hf ▸ h.entry_ne) (hf ▸ he)
  have hi : s.inode e.inode = .ok n := Vfs.fetch_eq (hei ▸ h.inode_ne) (hei ▸ hn)
  unfold filedata
  rw [hd, Exec.ok_bind, hi, Exec.ok_bind, hdata, hei]

/-- A handle of the file is in memory. -/
theorem handle (h : FileAt i d s) (hp : s.handlePosition d fp = some p) :
    ∃ f, s.file fp = .ok f ∧ f.dentry = d ∧ f.filePosition = p ∧ fp ≠ 0 := by
  obtain ⟨f, hf, hd, hpos⟩ := Vfs.handlePosition_eq_some.mp hp
  have hfp : fp ≠ 0 := by
    rintro rfl
    cases h.files_null.symm.trans hf
  exact ⟨f, Vfs.fetch_eq hfp hf, hd, hpos, hfp⟩

/-- The file is still there after a change to its inode and its handles that
keeps the entry. -/
theorem of_update (h : FileAt i d s) (t : Vfs) (hn : t.inodes i = some n)
    (hdata : n.data = .filedata list) (hentry : n.direntry = d)
    (hdentries : t.dentries = s.dentries) (hfp : fp ≠ 0) {o : Option File}
    (hfiles : t.files = Function.update s.files fp o) :
    FileAt i d t ∧ t.fileList i = list := by
  have hlist := Vfs.fileList_eq hn hdata
  refine ⟨⟨h.inode_ne, h.entry_ne, ⟨n, hn, hlist ▸ hdata, hentry⟩, ?_, ?_⟩, hlist⟩
  · rw [hdentries]
    exact h.entry
  · rw [hfiles, Function.update_of_ne hfp.symm]
    exact h.files_null

end FileAt

/-- `min(count, array->length - f->file_position)`. -/
def readCount (list : U8ArrayList) (position count : ℕ) : ℕ :=
  if count < sub32 list.length position then count else sub32 list.length position

/-- **What a call does** to the bytes of the file and the positions of its
handles, and what it returns, when it returns.  There is one case for each
call, and two for opening. -/
inductive FileEffect (list : U8ArrayList) (positions : ℕ → Option ℕ) :
    FileOp → FileOutput → U8ArrayList → (ℕ → Option ℕ) → Prop
  | openNull : FileEffect list positions (.open 0) (.handle 0) list positions
  | open {file : ℕ} (hfile : file ≠ 0) : FileEffect list positions (.open file) (.handle file)
      list (Function.update positions file (some 0))
  | close {fp p : ℕ} (hp : positions fp = some p) : FileEffect list positions (.close fp) .done
      list (Function.update positions fp none)
  | seek {fp p q : ℕ} (hp : positions fp = some p) : FileEffect list positions (.seek fp q) .done
      list (Function.update positions fp (some q))
  | read {fp p count : ℕ} {buf : List UInt8} (hp : positions fp = some p)
      (hbuf : memcpyFrom list.array p (readCount list p count) = .ok buf) :
      FileEffect list positions (.read fp count) (.bytes buf)
        list (Function.update positions fp (some ((p + buf.length) % 2 ^ 32)))
  | write {mem block : Option (Block UInt8)} {fp p : ℕ} {buf : List UInt8}
      (hp : positions fp = some p)
      (hblock : memcpyTo (u8aResize mem list ((list.capacity + buf.length) % 2 ^ 32)).array p buf
        = .ok block) :
      FileEffect list positions (.write mem fp buf) (.count buf.length)
        ⟨(p + buf.length) % 2 ^ 32, (list.capacity + buf.length) % 2 ^ 32, block⟩
        (Function.update positions fp (some ((p + buf.length) % 2 ^ 32)))

namespace FileAt

variable {op : FileOp} {out : FileOutput} {positions : ℕ → Option ℕ}

theorem read_eq (h : FileAt i d s) (hf : s.file fp = .ok f) (hd : f.dentry = d) (count : ℕ) :
    tmpfsReadFile s fp count =
      (memcpyFrom (s.fileList i).array f.filePosition
        (readCount (s.fileList i) f.filePosition count)).map fun buf =>
          (s.putFile fp { f with filePosition := (f.filePosition + buf.length) % 2 ^ 32 },
            buf) := by
  obtain ⟨n, hn, hdata, -⟩ := h.inode
  unfold tmpfsReadFile
  rw [hf, Exec.ok_bind, h.filedata_eq hd hn hdata, Exec.ok_bind]
  show (memcpyFrom (s.fileList i).array f.filePosition
    (readCount (s.fileList i) f.filePosition count) >>= _) = _
  cases memcpyFrom (s.fileList i).array f.filePosition
    (readCount (s.fileList i) f.filePosition count) with
  | error t => rfl
  | ok buf => rfl

/-- What a write does to the file system, up to the copy: the list is resized,
and then the copy may stop because it does not fit the block. -/
theorem write_eq (h : FileAt i d s) (hf : s.file fp = .ok f) (hd : f.dentry = d)
    (hn : s.inodes i = some n) (hdata : n.data = .filedata (s.fileList i))
    (mem : Option (Block UInt8)) (buf : List UInt8) :
    tmpfsWriteFile mem s fp buf =
      (memcpyTo (u8aResize mem (s.fileList i)
        (((s.fileList i).capacity + buf.length) % 2 ^ 32)).array f.filePosition buf).map
          fun block => ((s.putInode i
            { n with data := .filedata ⟨(f.filePosition + buf.length) % 2 ^ 32,
              ((s.fileList i).capacity + buf.length) % 2 ^ 32, block⟩ }).putFile fp
              { f with filePosition := (f.filePosition + buf.length) % 2 ^ 32 }, buf.length) := by
  unfold tmpfsWriteFile
  rw [hf, Exec.ok_bind, h.filedata_eq hd hn hdata, Exec.ok_bind]
  dsimp only
  cases memcpyTo (u8aResize mem (s.fileList i)
    (((s.fileList i).capacity + buf.length) % 2 ^ 32)).array f.filePosition buf with
  | error t => rfl
  | ok block => rfl

/-- A call that has an effect returns, and has that effect on the list and on
the positions. -/
theorem run_eq (h : FileAt i d s)
    (he : FileEffect (s.fileList i) (s.handlePosition d) op out list positions) :
    ∃ s', op.run i s = .ok (s', out) ∧ FileAt i d s' ∧ s'.fileList i = list ∧
      s'.handlePosition d = positions := by
  obtain ⟨n, hn, hdata, hentry⟩ := h.inode
  cases he with
  | openNull => exact ⟨s, rfl, h, rfl, rfl⟩
  | @«open» file hfile =>
      have hrun : tmpfsOpenFile file s i .ok =
          .ok ((s.putInode i { n with refcount := (n.refcount + 1) % 2 ^ 32 }).putFile file
            ⟨n.direntry, 0⟩, file, .ok) := by
        unfold tmpfsOpenFile
        rw [if_neg hfile, show s.inode i = .ok n from Vfs.fetch_eq h.inode_ne hn]
        rfl
      have hfile' := h.of_update
        ((s.putInode i { n with refcount := (n.refcount + 1) % 2 ^ 32 }).putFile file
          ⟨n.direntry, 0⟩) (Vfs.putInode_self ..) hdata hentry rfl hfile rfl
      refine ⟨_, ?_, hfile'.1, hfile'.2, Vfs.handlePosition_putFile hentry⟩
      show (tmpfsOpenFile file s i .ok >>= _) = _
      rw [hrun]
      rfl
  | @close fp p hp =>
      obtain ⟨f, hf, hd, -, hfp⟩ := h.handle hp
      obtain ⟨e, he, hei⟩ := h.entry
      have hdentry : s.dentry f.dentry = .ok e := Vfs.fetch_eq (hd ▸ h.entry_ne) (hd ▸ he)
      have hi : s.inode e.inode = .ok n := Vfs.fetch_eq (hei ▸ h.inode_ne) (hei ▸ hn)
      have hrun : tmpfsCloseFile s fp =
          .ok { s.putInode i { n with refcount := sub32 n.refcount 1 } with
            files := Function.update s.files fp none } := by
        unfold tmpfsCloseFile
        rw [hf, Exec.ok_bind, hdentry, Exec.ok_bind, hi, hei]
        rfl
      have hfile' := h.of_update { s.putInode i { n with refcount := sub32 n.refcount 1 } with
        files := Function.update s.files fp none } (Vfs.putInode_self ..) hdata hentry rfl hfp rfl
      refine ⟨_, ?_, hfile'.1, hfile'.2, Vfs.handlePosition_close
        (s := s.putInode i { n with refcount := sub32 n.refcount 1 })⟩
      show (tmpfsCloseFile s fp >>= _) = _
      rw [hrun]
      rfl
  | @seek fp p q hp =>
      obtain ⟨f, hf, hd, -, hfp⟩ := h.handle hp
      have hfile' := h.of_update (s.putFile fp { f with filePosition := q }) hn hdata
        hentry rfl hfp rfl
      refine ⟨_, ?_, hfile'.1, hfile'.2, Vfs.handlePosition_putFile hd⟩
      show (s.file fp >>= _) = _
      rw [hf]
      rfl
  | @read fp p count buf hp hbuf =>
      obtain ⟨f, hf, hd, rfl, hfp⟩ := h.handle hp
      have hfile' := h.of_update (s.putFile fp
        { f with filePosition := (f.filePosition + buf.length) % 2 ^ 32 }) hn hdata
        hentry rfl hfp rfl
      refine ⟨_, ?_, hfile'.1, hfile'.2, Vfs.handlePosition_putFile hd⟩
      show (tmpfsReadFile s fp count >>= _) = _
      rw [h.read_eq hf hd, hbuf]
      rfl
  | @write mem block fp p buf hp hblock =>
      obtain ⟨f, hf, hd, rfl, hfp⟩ := h.handle hp
      have hfile' := h.of_update ((s.putInode i
        { n with data := .filedata ⟨(f.filePosition + buf.length) % 2 ^ 32,
          ((s.fileList i).capacity + buf.length) % 2 ^ 32, block⟩ }).putFile fp
            { f with filePosition := (f.filePosition + buf.length) % 2 ^ 32 })
        (Vfs.putInode_self ..) rfl hentry rfl hfp rfl
      refine ⟨_, ?_, hfile'.1, hfile'.2, Vfs.handlePosition_putFile hd⟩
      show (tmpfsWriteFile mem s fp buf >>= _) = _
      rw [h.write_eq hf hd hn hdata, hblock]
      rfl

end FileAt

/-- The call is made on an open handle of the file. -/
def FileOp.OnHandle (d : ℕ) (s : Vfs) : FileOp → Prop
  | .open _ => True
  | .close fp | .seek fp _ | .read fp _ | .write _ fp _ => (s.handlePosition d fp).isSome

/-- A call on a handle of the file that returns has one of the effects: the
converse of `run_eq`. -/
theorem FileAt.effect_of_run (h : FileAt i d s) {op : FileOp} {out : FileOutput}
    (hop : op.OnHandle d s) (hrun : op.run i s = .ok (s', out)) :
    FileAt i d s' ∧
      FileEffect (s.fileList i) (s.handlePosition d) op out (s'.fileList i)
        (s'.handlePosition d) := by
  have hof : ∀ {out' list positions},
      FileEffect (s.fileList i) (s.handlePosition d) op out' list positions →
      FileAt i d s' ∧ FileEffect (s.fileList i) (s.handlePosition d) op out (s'.fileList i)
        (s'.handlePosition d) := by
    intro out' list positions he
    obtain ⟨s'', hrun', hfile, hlist, hpositions⟩ := h.run_eq he
    cases hrun.symm.trans hrun'
    rw [hlist, hpositions]
    exact ⟨hfile, he⟩
  cases op with
  | «open» file =>
      by_cases hfile : file = 0
      · subst hfile
        exact hof .openNull
      · exact hof (.open hfile)
  | close fp =>
      obtain ⟨p, hp⟩ := Option.isSome_iff_exists.mp hop
      exact hof (.close hp)
  | seek fp q =>
      obtain ⟨p, hp⟩ := Option.isSome_iff_exists.mp hop
      exact hof (.seek hp)
  | read fp count =>
      obtain ⟨p, hp⟩ := Option.isSome_iff_exists.mp hop
      obtain ⟨f, hf, hd, rfl, -⟩ := h.handle hp
      cases hbuf : memcpyFrom (s.fileList i).array f.filePosition
          (readCount (s.fileList i) f.filePosition count) with
      | ok buf => exact hof (.read hp hbuf)
      | error t =>
          change (tmpfsReadFile s fp count >>= _) = _ at hrun
          rw [h.read_eq hf hd, hbuf] at hrun
          cases hrun
  | write mem fp buf =>
      obtain ⟨p, hp⟩ := Option.isSome_iff_exists.mp hop
      obtain ⟨f, hf, hd, rfl, -⟩ := h.handle hp
      obtain ⟨n, hn, hdata, -⟩ := h.inode
      cases hblock : memcpyTo (u8aResize mem (s.fileList i)
          (((s.fileList i).capacity + buf.length) % 2 ^ 32)).array f.filePosition buf with
      | ok block => exact hof (.write hp hblock)
      | error t =>
          change (tmpfsWriteFile mem s fp buf >>= _) = _ at hrun
          rw [h.write_eq hf hd hn hdata, hblock] at hrun
          cases hrun

/-! ### Each call against the reference

On the reference a write puts its bytes at the position and leaves what is
behind them; in the source it also ends the file there.  The two agree on a
write that ends at or past the end. -/

namespace Agrees

theorem length_eq (h : Agrees i d s A) : A.contents.length = (s.fileList i).length := by
  obtain ⟨b, hb⟩ := h.block
  rw [← h.contents, hb.length_contents]

/-- A handle stands where that of the reference does, within the file. -/
theorem position_eq (h : Agrees i d s A) (hp : s.handlePosition d fp = some p) :
    A.position fp = some p ∧ p ≤ (s.fileList i).length :=
  ⟨h.position ▸ hp, h.length_eq ▸ h.bounded fp p (h.position ▸ hp)⟩

/-- A call that has the effect it has on the reference is faithful.  What is
left to show of a call is what it does to contents and positions. -/
theorem faithful (h : Agrees i d s A) {op : FileOp} {out : FileOutput}
    {B : SharedFile ℕ UInt8} {positions : ℕ → Option ℕ} (href : op.reference A = (B, out))
    (he : FileEffect (s.fileList i) (s.handlePosition d) op out list positions)
    (hblock : list.In b) (hcontents : list.contents = B.contents)
    (hpositions : positions = B.position) (hbounded : B.Bounded) : op.Faithful i d s A := by
  obtain ⟨s', hrun, hfile, hlist, hposition⟩ := h.fileAt.run_eq he
  unfold FileOp.Faithful
  rw [href]
  refine ⟨s', hrun, ⟨⟨hfile.inode_ne, hfile.entry_ne, hfile.inode, hfile.entry, ?_,
    hfile.files_null⟩, ?_, hposition.trans hpositions, hbounded⟩⟩
  · rw [hlist]
    exact ⟨b, hblock⟩
  · rw [hlist, hcontents]

end Agrees

theorem open_faithful (h : Agrees i d s A) (file : ℕ) :
    (FileOp.open file).Faithful i d s A := by
  obtain ⟨b, hb⟩ := h.block
  by_cases hfile : file = 0
  · subst hfile
    exact h.faithful rfl .openNull hb h.contents h.position h.bounded
  · have href : (FileOp.open file).reference A = (A.moveTo file 0, .handle file) := by
      show (if file = 0 then A else A.moveTo file 0, FileOutput.handle file) = _
      rw [if_neg hfile]
    refine h.faithful href (.open hfile) hb h.contents ?_ (h.bounded.moveTo (Nat.zero_le _))
    rw [h.position]
    rfl

theorem close_faithful (h : Agrees i d s A) (hp : s.handlePosition d fp = some p) :
    (FileOp.close fp).Faithful i d s A := by
  obtain ⟨b, hb⟩ := h.block
  refine h.faithful rfl (.close hp) hb h.contents ?_ h.bounded.close
  rw [h.position]
  rfl

theorem seek_faithful (h : Agrees i d s A) (hp : s.handlePosition d fp = some p) {q : ℕ}
    (hq : q ≤ (s.fileList i).length) : (FileOp.seek fp q).Faithful i d s A := by
  obtain ⟨b, hb⟩ := h.block
  refine h.faithful rfl (.seek hp) hb h.contents ?_ (h.bounded.moveTo (h.length_eq ▸ hq))
  rw [h.position]
  rfl

/-- The number of bytes a handle within the file reads. -/
theorem readCount_eq (hp : p ≤ list.length) (hlen : list.length < 2 ^ 32) (count : ℕ) :
    readCount list p count = min count (list.length - p) := by
  unfold readCount
  rw [sub32_of_le hp hlen, Nat.min_def]
  split <;> split <;> omega

/-- **A read** by a handle within the file gives the bytes behind its
position, as many as were asked for or as there are. -/
theorem memcpyFrom_file (hb : list.In b) (hp : p ≤ list.length) (count : ℕ) :
    memcpyFrom list.array p (readCount list p count) =
      .ok ((list.contents.drop p).take count) := by
  have hlen := hb.length_le
  have hcap := hb.capacity_le
  have hsize := hb.size_lt
  rw [readCount_eq hp (by omega), hb.array, memcpyFrom_some (by omega), hb.contents,
    ← List.map_drop, ← List.map_take]
  congr 1
  apply List.ext_getElem
  · rw [List.length_map, List.length_map, List.length_take, List.length_drop, List.length_range,
      List.length_range]
  · intro k hk hk'
    rw [List.getElem_map, List.getElem_map, List.getElem_take, List.getElem_drop,
      List.getElem_range, List.getElem_range]

/-- A read returns what the file has from the position on, and moves there, as
long as the handles are within the file. -/
theorem read_faithful (h : Agrees i d s A) (hp : s.handlePosition d fp = some p) (count : ℕ) :
    (FileOp.read fp count).Faithful i d s A := by
  obtain ⟨b, hb⟩ := h.block
  obtain ⟨hA, hle⟩ := h.position_eq hp
  have hbuf := memcpyFrom_file hb hle count
  rw [h.contents] at hbuf
  have hend : p + (A.bytesAt p count).length ≤ A.contents.length := by
    rw [SharedFile.length_bytesAt, h.length_eq]
    omega
  have hmod : (p + (A.bytesAt p count).length) % 2 ^ 32 = p + (A.bytesAt p count).length := by
    have hlen := hb.length_le
    have hcap := hb.capacity_le
    have hsize := hb.size_lt
    exact Nat.mod_eq_of_lt (by have := h.length_eq; omega)
  have href : (FileOp.read fp count).reference A =
      (A.read fp p count, .bytes (A.bytesAt p count)) := by
    show (A.read fp ((A.position fp).getD 0) count,
      FileOutput.bytes (A.bytesAt ((A.position fp).getD 0) count)) = _
    rw [hA, Option.getD_some]
  have he := FileEffect.read hp hbuf
  rw [show List.take count (List.drop p A.contents) = A.bytesAt p count from rfl, hmod] at he
  refine h.faithful href he hb h.contents ?_ (h.bounded.moveTo hend)
  rw [h.position]
  rfl

/-- A write that fits replaces the bytes from the position on; it reaches at
least to the end of what was there, where the length is then put. -/
theorem write_faithful (h : Agrees i d s A)
    (hop : (FileOp.write mem fp buf).Allowed i d s) (hfits : (FileOp.write mem fp buf).Fits i d s) :
    (FileOp.write mem fp buf).Faithful i d s A := by
  obtain ⟨hopen, hroom, hmem⟩ := hop
  obtain ⟨hend, hgrow⟩ := hfits
  obtain ⟨p, hp⟩ := Option.isSome_iff_exists.mp hopen
  obtain ⟨b, hb⟩ := h.block
  obtain ⟨hA, hle⟩ := h.position_eq hp
  rw [hp, Option.getD_some] at hend
  rw [hb.room] at hroom hgrow
  have hcap : (s.fileList i).capacity + buf.length < 2 ^ 32 := by
    have := hb.capacity_le
    omega
  have hmod : (p + buf.length) % 2 ^ 32 = p + buf.length :=
    Nat.mod_eq_of_lt (by have := hb.length_le; omega)
  obtain ⟨b', hcopy, hin, hcontents⟩ := hb.write hle hcap hmem hgrow
  have href : (FileOp.write mem fp buf).reference A = (A.write fp p buf, .count buf.length) := by
    show (A.write fp ((A.position fp).getD 0) buf, _) = _
    rw [hA, Option.getD_some]
  have he := FileEffect.write hp hcopy
  rw [hmod, Nat.mod_eq_of_lt hcap] at he
  refine h.faithful href he hin ?_ ?_ (h.bounded.write (h.length_eq ▸ hle) buf)
  · rw [hcontents, h.contents]
    exact (List.splice_of_le (h.length_eq ▸ hend)).symm
  · rw [h.position]
    rfl

/-- A write that does not fit stops the kernel or makes the file too short.
In either case it is not what the reference does. -/
theorem fits_of_write_faithful (h : Agrees i d s A)
    (hop : (FileOp.write mem fp buf).Allowed i d s)
    (hfaithful : (FileOp.write mem fp buf).Faithful i d s A) :
    (FileOp.write mem fp buf).Fits i d s := by
  obtain ⟨hopen, hroom, -⟩ := hop
  obtain ⟨b, hb⟩ := h.block
  rw [hb.room] at hroom
  have hcap : (s.fileList i).capacity + buf.length < 2 ^ 32 := by
    have := hb.capacity_le
    omega
  obtain ⟨s', hrun, hagree⟩ := hfaithful
  have hon : (FileOp.write mem fp buf).OnHandle d s := hopen
  obtain ⟨-, he⟩ := h.fileAt.effect_of_run hon hrun
  have hlength := hagree.length_eq
  generalize s'.fileList i = list at he hlength
  generalize s'.handlePosition d = positions at he
  cases he with
  | @write _ block _ p _ hp hblock =>
      obtain ⟨hA, hle⟩ := h.position_eq hp
      refine ⟨?_, ?_⟩
      · -- the file the code leaves ends where the handle stands
        have hwrite : (A.write fp p buf).contents.length = _ :=
          SharedFile.length_write (h.length_eq ▸ hle) buf
        have hlen : (A.write fp ((A.position fp).getD 0) buf).contents.length =
            (p + buf.length) % 2 ^ 32 := hlength
        rw [hA, Option.getD_some, hwrite, h.length_eq] at hlen
        rw [hp, Option.getD_some]
        exact Nat.le_trans (Nat.le_max_left _ _) (hlen ▸ Nat.mod_le _ _)
      · rw [hb.room]
        by_contra hno
        obtain ⟨hgrow, hmem⟩ := not_or.mp hno
        rw [Option.not_isSome_iff_eq_none.mp hmem, hb.write_none hcap hgrow] at hblock
        cases hblock

/-- A call is faithful exactly when it fits, in every state that agrees with
the reference. -/
theorem faithful_iff_fits (h : Agrees i d s A) {op : FileOp} (hop : op.Allowed i d s) :
    op.Faithful i d s A ↔ op.Fits i d s := by
  cases op with
  | «open» file => exact iff_of_true (open_faithful h file) trivial
  | close fp =>
      obtain ⟨p, hp⟩ := Option.isSome_iff_exists.mp hop
      exact iff_of_true (close_faithful h hp) trivial
  | seek fp position =>
      obtain ⟨p, hp⟩ := Option.isSome_iff_exists.mp hop.1
      exact iff_of_true (seek_faithful h hp hop.2) trivial
  | read fp count =>
      obtain ⟨p, hp⟩ := Option.isSome_iff_exists.mp hop
      exact iff_of_true (read_faithful h hp count) trivial
  | write mem fp buf => exact ⟨fits_of_write_faithful h hop, write_faithful h hop⟩

/-! ### Runs

The calls on one file, by any number of handles in any order. -/

/-- The call may be made, and fits. -/
def FileOp.Fitting (i d : ℕ) (op : FileOp) (s : Vfs) : Prop := op.Allowed i d s ∧ op.Fits i d s

/-- **Files are byte arrays** as long as each call fits: any number of
handles, in any order of calls, the calls return what the reference returns
and leave the file of the reference; and in every state such calls lead to,
the next call does what it does on the reference if and only if it fits. -/
theorem file_faithful (h : Agrees i d s A) (ops : List FileOp)
    (hfit : Calls.Each (FileOp.run i) (FileOp.Fitting i d) ops s) :
    ∃ s', Calls.run (FileOp.run i) ops s = .ok (s', (Calls.reference FileOp.reference ops A).2) ∧
      Agrees i d s' (Calls.reference FileOp.reference ops A).1 ∧
      ∀ op : FileOp, op.Allowed i d s' →
        (op.Faithful i d s' (Calls.reference FileOp.reference ops A).1 ↔ op.Fits i d s') := by
  -- a call that fits is a step of the simulation
  have hstep : ∀ op s A, Agrees i d s A → FileOp.Fitting i d op s → op.Faithful i d s A :=
    fun op s A h hfitting => (faithful_iff_fits h hfitting.1).mpr hfitting.2
  obtain ⟨s', hrun, h'⟩ := Calls.simulation hstep h hfit
  exact ⟨s', hrun, h', fun op hop => faithful_iff_fits h' hop⟩

/-- An empty file at inode 4 and entry 3, in the root. -/
def createdFile : Exec Vfs := do
  let s := createTmpfsRoot 1 2 (some ⟨16, fun _ => 0⟩)
    ⟨fun _ => none, fun _ => none, fun _ => none, 0, 0, 0⟩
  let s := createDirentry 3 (qstrFromNullTerminatedString [102]) 1 0 s
  let (s, _, _) ← tmpfsCreateFile (some ⟨16, fun _ => 0⟩) 4 none s 1 3 .ok
  .ok s

theorem createdFile_agrees :
    ∃ s, createdFile = .ok s ∧ Agrees 4 3 s ⟨[], fun _ => none⟩ := by
  refine ⟨_, rfl, ⟨nofun, nofun, ⟨_, rfl, rfl, rfl⟩, ⟨_, rfl, rfl⟩, ⟨⟨16, fun _ => 0⟩, ?_⟩, rfl⟩,
    rfl, rfl, nofun⟩
  exact ⟨rfl, by decide, by decide, by decide, by decide⟩

/-- Two bytes written by a new handle. -/
theorem file_faithful_two_bytes : ∃ s s', createdFile = .ok s ∧
    Calls.run (FileOp.run 4) [.open 5, .write (some ⟨18, fun _ => 0⟩) 5 [1, 2]] s =
      .ok (s', [.handle 5, .count 2]) ∧ (s'.fileList 4).contents = [1, 2] := by
  obtain ⟨s, hs, hagree⟩ := createdFile_agrees
  have hfit : Calls.Each (FileOp.run 4) (FileOp.Fitting 4 3)
      [.open 5, .write (some ⟨18, fun _ => 0⟩) 5 [1, 2]] s := by
    cases hs
    refine ⟨⟨rfl, trivial⟩, ?_⟩
    rintro s' out ⟨⟩
    refine ⟨⟨⟨rfl, by decide, ?_⟩, ⟨by decide, .inr rfl⟩⟩, fun _ _ _ => trivial⟩
    rintro new ⟨⟩
    exact ⟨by decide, by decide⟩
  obtain ⟨s', hrun, h', -⟩ := file_faithful hagree _ hfit
  exact ⟨s, s', hs, hrun, h'.contents⟩

/-- **A write may shorten the file**: two bytes are written, the handle is
reset, one byte is written, and the second byte is gone. -/
theorem write_shortens : ∃ s s' outs, createdFile = .ok s ∧
    Calls.run (FileOp.run 4) [.open 5, .write (some ⟨18, fun _ => 0⟩) 5 [1, 2], .seek 5 0,
      .write (some ⟨19, fun _ => 0⟩) 5 [3], .read 5 1] s = .ok (s', outs) ∧
    outs = [.handle 5, .count 2, .done, .count 1, .bytes []] ∧
    (Calls.reference FileOp.reference [.open 5, .write (some ⟨18, fun _ => 0⟩) 5 [1, 2], .seek 5 0,
      .write (some ⟨19, fun _ => 0⟩) 5 [3], .read 5 1] ⟨[], fun _ => none⟩).2 =
        [.handle 5, .count 2, .done, .count 1, .bytes [2]] ∧
    (s'.fileList 4).contents = [3] :=
  ⟨_, _, _, rfl, rfl, rfl, rfl, rfl⟩

end CourseOs.Fs
