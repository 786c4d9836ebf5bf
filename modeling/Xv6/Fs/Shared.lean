import Xv6.Fs.Contents
import Xv6.Fs.Syscall
import Xv6.Lib.Run

/-!
# Writes through a shared file

`filewrite` by any number of processes that share one `struct file`, as `fork` and `dup` let them. A call writes its bytes
in chunks; each chunk is written, and `f->off` moved, in a transaction and under the lock of the inode, which is one step
here. Between two chunks the others run, so the chunks of a call are scattered over the file and only the offset keeps them
apart.
-/

namespace Xv6.Fs

open Xv6.Lib Xv6.Lib.Eff

/-- A process in the loop of `filewrite(f, addr, n)`, with `i` bytes written, or after its last call, which returned `r`. -/
inductive Writer
  | loop (addr : List Byte) (i : Nat)
  | returned (addr : List Byte) (r : Int)
deriving DecidableEq

/-- A file system, the offset of the shared file and the processes. -/
structure Shared (ι : Type) where
  fs : State
  off : Nat
  pc : ι → Writer

/-- The call of a process, or its next step. -/
inductive Shared.Event (ι : Type)
  | write (p : ι) (addr : List Byte)
  | advance (p : ι)

/-- The bytes from `addr + i` on that one round of the loop writes. -/
def piece (addr : List Byte) (i : Nat) : List Byte := (addr.drop i).take maxChunk

namespace Shared
variable {ι : Type} [DecidableEq ι]

def goto (s : Shared ι) (p : ι) (x : Writer) : Shared ι := { s with pc := Function.update s.pc p x }

/-- The next step of process `p` in `filewrite` on inode `ip`. -/
def advance (ip : Fin NINODE) (s : Shared ι) (p : ι) : Option (Shared ι) :=
  match s.pc p with
  | .returned _ _ => none
  | .loop addr i =>
    if i < addr.length then
      match transaction (writeChunk ip s.off (piece addr i)) s.fs with
      | (.error _, _, _) => none
      | (.ok none, fs, _) => some { s.goto p (.returned addr (-1)) with fs := fs }
      | (.ok (some r), fs, _) =>
        -- otherwise `panic("short filewrite")`
        if r = (piece addr i).length then some { s.goto p (.loop addr (i + r)) with fs := fs, off := s.off + r } else none
    else some (s.goto p (.returned addr (if i = addr.length then addr.length else -1)))

def step (ip : Fin NINODE) (s : Shared ι) : Event ι → Option (Shared ι)
  | .write p addr => match s.pc p with
    | .returned _ _ => some (s.goto p (.loop addr 0))
    | .loop _ _ => none
  | .advance p => advance ip s p

/-! ## What a run has written -/

def Event.author : Event ι → ι
  | .write p _ | .advance p => p

/-- The bytes that a step gives to `writei`. -/
def writtenBy (s : Shared ι) : Event ι → List Byte
  | .advance p => match s.pc p with
    | .loop addr i => piece addr i
    | .returned _ _ => []
  | .write _ _ => []

/-- The bytes that a step passes to `filewrite`. -/
def passedBy : Event ι → List Byte
  | .write _ addr => addr
  | .advance _ => []

/-- All bytes written in a run, in the order in which the lock was taken for them. -/
def written (tr : List (Shared ι × Event ι)) : List Byte := tr.flatMap fun q => writtenBy q.1 q.2

/-- The bytes that process `p` has written. -/
def writtenOf (p : ι) (tr : List (Shared ι × Event ι)) : List Byte := written (tr.filter fun q => q.2.author = p)

/-- The bytes that process `p` has passed to `filewrite`, in all of its calls. -/
def passedOf (p : ι) (tr : List (Shared ι × Event ι)) : List Byte :=
  (tr.filter fun q => q.2.author = p).flatMap fun q => passedBy q.2

end Shared

/-- What is still to be written of the call. -/
def Writer.rest : Writer → List Byte
  | loop addr i => addr.drop i
  | returned _ _ => []

/-- No `writei` of the call has failed. -/
def Writer.Whole : Writer → Prop
  | loop addr i => i ≤ addr.length
  | returned addr r => r = addr.length

/-! ## One chunk -/

/-- Other inodes are locked. -/
def State.locks (s : State) (busy : Fin NINODE → Bool) : State :=
  { s with icache := fun i => { s.icache i with busy := busy i } }

/-- The file system is in order, and `i` an inode in use that is no device and not locked. -/
structure State.Usable (s : State) (i : Fin NINODE) : Prop where
  hole : HoleFree s
  regular : s.Regular i
  free : (s.icache i).busy = false

section
variable {s s' : State} {i : Fin NINODE} {busy : Fin NINODE → Bool} {b : Bool} {old src src' : List Byte} {off : Nat}

theorem setInode_busy :
    s.setInode i { s.icache i with busy := b } = s.locks (Function.update (fun j => (s.icache j).busy) i b) := by
  unfold State.setInode State.locks
  congr 1
  funext j
  rcases eq_or_ne j i with rfl | ne
  · rw [Function.update_self, Function.update_self]
  · rw [Function.update_of_ne ne, Function.update_of_ne ne]

/-- Neither locks nor transactions are part of the contents. -/
theorem HoleFree.locks (hole : HoleFree s) (busy : Fin NINODE → Bool) (b : Bool) (log : List Nat) :
    HoleFree { s.locks busy with inTrans := b, lh := log } :=
  ⟨hole.unique, hole.inums, hole.coherent, hole.typed, hole.once, hole.data, hole.sound, hole.marked⟩

theorem ilock_loaded (loaded : s.Loaded i) (free : (s.icache i).busy = false) :
    ilock i s = (.ok (), s.locks (Function.update (fun j => (s.icache j).busy) i true), []) := by
  rw [← setInode_busy, ilock, bind_ok (show state s = (.ok s, s, []) from rfl), if_neg (Nat.not_lt.2 loaded.1),
    if_neg (by simp [free]), if_pos loaded.2]
  rfl

theorem iunlock_loaded (loaded : s.Loaded i) (held : (s.icache i).busy = true) :
    iunlock i s = (.ok (), s.locks (Function.update (fun j => (s.icache j).busy) i false), []) := by
  rw [← setInode_busy, iunlock, bind_ok (show state s = (.ok s, s, []) from rfl), if_pos ⟨held, loaded.1⟩]
  rfl

/-- **A chunk that is not rejected is written at the offset**, and the inode is unlocked again. -/
theorem writeChunk_bytes (usable : s.Usable i) (enough : s.needs i off src.length ≤ s.room)
    (accepted : ¬ Rejected (s.contents i).length off src.length) :
    returns (transaction (writeChunk i off src)) (fun r s' => r = some src.length ∧ s'.Usable i ∧
      s'.contents i = splice (s.contents i) off src) s := by
  obtain ⟨loaded, notDev⟩ := usable.regular
  unfold transaction writeChunk
  refine returns_update_bind (returns_bind (Q := fun r s' => r = some src.length ∧ s'.Usable i ∧
    s'.contents i = splice (s.contents i) off src) ?_ ?_)
  · have locked := ilock_loaded (s := { s with inTrans := true }) loaded usable.free
    refine returns_bind (Q := fun _ s' => s' = _) ⟨yields_of_run locked rfl⟩ ?_
    rintro _ _ rfl
    refine returns_bind (yields.toReturns (writei_bytes (usable.hole.locks _ true s.lh) ⟨rfl, usable.hole.marked⟩
      loaded notDev enough)) ?_
    intro r s1 outcome
    obtain ⟨rfl, writes⟩ := (if_neg accepted).mp outcome
    have loaded1 : s1.Loaded i := (writes.only.loaded i).2 loaded
    have held : (s1.icache i).busy = true := by
      rw [writes.only.own]
      simp [State.locks]
    refine returns_bind (Q := fun _ s' => s' = _) ⟨yields_of_run (iunlock_loaded loaded1 held) rfl⟩ ?_
    rintro _ _ rfl
    refine returns_pure ⟨rfl, ⟨?_, ⟨loaded1, ?_⟩, by simp [State.locks]⟩, writes.contents⟩
    · exact writes.hole.locks (Function.update (fun j => (s1.icache j).busy) i false) s1.inTrans s1.lh
    show (s1.copy i).type ≠ .dev
    rw [State.copy, writes.only.own]
    exact notDev
  · rintro r s' ⟨rfl, usable', contents⟩
    refine returns_update_bind (returns_pure ⟨rfl, ⟨?_, usable'.regular, usable'.free⟩, contents⟩)
    exact usable'.hole.locks (fun j => (s'.icache j).busy) false []

/-- Bytes that are written behind the bytes written before. -/
theorem splice_splice (within : off ≤ old.length) :
    splice (splice old off src) (off + src.length) src' = splice old off (src ++ src') := by
  have below : (old.take off).length = off := by rw [List.length_take, min_eq_left within]
  have front : (old.take off ++ src).length = off + src.length := by rw [List.length_append, below]
  unfold splice
  rw [← front, List.take_left, List.drop_append, List.drop_eq_nil_of_le (Nat.le_add_right _ _), Nat.add_sub_cancel_left,
    List.drop_drop, List.nil_append, List.append_assoc _ src src', front, List.length_append, Nat.add_assoc]

end

/-! ## Every interleaving -/

namespace Shared
variable {ι : Type} {ip : Fin NINODE} {s0 s s' : Shared ι} {e : Event ι} {p : ι} {x y : Writer}

/-- The system before the first call. -/
structure Started (ip : Fin NINODE) (s : Shared ι) : Prop where
  usable : s.fs.Usable ip
  within : s.off ≤ (s.fs.contents ip).length
  outside : ∀ p, s.pc p = .returned [] 0

/-- A chunk that is about to be written finds enough free blocks and stays below the largest file. -/
def Fits (ip : Fin NINODE) (s : Shared ι) (e : Event ι) : Prop :=
  s.fs.needs ip s.off (writtenBy s e).length ≤ s.fs.room ∧ s.off + (writtenBy s e).length ≤ MAXFILE * BSIZE

variable [DecidableEq ι] {tr : List (Shared ι × Event ι)}

/-- What holds after the steps `tr` from `s0`. -/
structure Inv (ip : Fin NINODE) (s0 : Shared ι) (tr : List (Shared ι × Event ι)) (s : Shared ι) : Prop where
  usable : s.fs.Usable ip
  contents : s.fs.contents ip = splice (s0.fs.contents ip) s0.off (written tr)
  offset : s.off = s0.off + (written tr).length
  own : ∀ p, writtenOf p tr ++ (s.pc p).rest = passedOf p tr
  whole : ∀ p, (s.pc p).Whole

/-- A step of its author from the point `y` to the point `x` that writes `w`. -/
theorem Inv.move (inv : Inv ip s0 tr s) (start : Started ip s0) {w : List Byte} (writes : writtenBy s e = w)
    (code : s.pc e.author = y) (pc : s'.pc = Function.update s.pc e.author x) (whole : x.Whole)
    (balance : y.rest ++ passedBy e = w ++ x.rest) (usable : s'.fs.Usable ip)
    (contents : s'.fs.contents ip = splice (s.fs.contents ip) s.off w) (offset : s'.off = s.off + w.length) :
    Inv ip s0 (tr ++ [(s, e)]) s' := by
  have all : written (tr ++ [(s, e)]) = written tr ++ w := by simp [written, writes]
  refine ⟨usable, ?_, ?_, fun q => ?_, fun q => ?_⟩
  · rw [contents, inv.contents, inv.offset, all, splice_splice start.within]
  · rw [offset, inv.offset, all, List.length_append, Nat.add_assoc]
  · have before := inv.own q
    rw [pc]
    rcases eq_or_ne q e.author with rfl | ne
    · have passed : passedOf e.author (tr ++ [(s, e)]) = passedOf e.author tr ++ passedBy e := by simp [passedOf]
      have wrote : writtenOf e.author (tr ++ [(s, e)]) = writtenOf e.author tr ++ w := by simp [writtenOf, written, writes]
      rw [Function.update_self, passed, wrote, ← before, code, List.append_assoc, List.append_assoc, balance]
    · rw [Function.update_of_ne ne]
      simpa [writtenOf, passedOf, written, List.filter_cons, ne.symm] using before
  · rw [pc]
    rcases eq_or_ne q e.author with rfl | ne
    · rwa [Function.update_self]
    · rw [Function.update_of_ne ne]
      exact inv.whole q

/-- A step that writes nothing. -/
theorem Inv.silent (inv : Inv ip s0 tr s) (start : Started ip s0) (writes : writtenBy s e = []) (code : s.pc e.author = y)
    (whole : x.Whole) (balance : y.rest ++ passedBy e = x.rest) : Inv ip s0 (tr ++ [(s, e)]) (s.goto e.author x) :=
  inv.move start writes code rfl whole balance inv.usable (by simp [splice, goto]) rfl

/-- The rest of a call after a chunk. -/
theorem rest_piece (addr : List Byte) (i : Nat) : addr.drop i = piece addr i ++ addr.drop (i + (piece addr i).length) := by
  rw [← List.drop_drop, piece, List.length_take]
  rcases le_total maxChunk (addr.drop i).length with more | less
  · rw [min_eq_left more, List.take_append_drop]
  · rw [min_eq_right less, List.take_of_length_le less, List.drop_length, List.append_nil]

/-- A step of a writer keeps the invariant. -/
theorem advance_inv (start : Started ip s0) (inv : Inv ip s0 tr s) (fits : Fits ip s (.advance p))
    (taken : advance ip s p = some s') : Inv ip s0 (tr ++ [(s, .advance p)]) s' := by
  have whole := inv.whole p
  unfold advance at taken
  cases code : s.pc p with
  | returned addr r => simp [code] at taken
  | loop addr i =>
    rw [code] at whole
    simp only [code] at taken
    have writes : writtenBy s (.advance p) = piece addr i := by simp [writtenBy, code]
    by_cases more : i < addr.length
    · have within : s.off ≤ (s.fs.contents ip).length := by
        rw [inv.contents, length_splice start.within, inv.offset]
        exact le_max_right _ _
      have accepted : ¬ Rejected (s.fs.contents ip).length s.off (piece addr i).length := by
        have large : MAXFILE * BSIZE < 2 ^ 32 := by decide
        have small := fits.2
        rw [writes] at small
        rintro (h | h | h) <;> omega
      rcases run : transaction (writeChunk ip s.off (piece addr i)) s.fs with ⟨e | r, fs, t⟩
      · simp [more, run] at taken
      obtain ⟨rfl, usable, contents⟩ := (writeChunk_bytes inv.usable (writes ▸ fits.1) accepted).apply run
      simp only [if_pos more, run, if_true] at taken
      cases taken
      have short : (piece addr i).length ≤ addr.length - i := by
        rw [piece, List.length_take, List.length_drop]
        exact min_le_right _ _
      refine inv.move (y := .loop addr i) (x := .loop addr (i + (piece addr i).length)) start writes code rfl ?_ ?_ usable
        contents rfl
      · show i + (piece addr i).length ≤ addr.length
        omega
      · exact (List.append_nil _).trans (rest_piece addr i)
    · have done : i = addr.length := le_antisymm whole (Nat.not_lt.1 more)
      simp only [if_neg more, if_pos done] at taken
      cases taken
      refine inv.silent (e := .advance p) (y := .loop addr i) start ?_ code rfl ?_
      · simp [writes, piece, done]
      · show addr.drop i ++ [] = []
        rw [done, List.drop_length, List.append_nil]

theorem run_inv (start : Started ip s0) (run : Run (step ip) s0 tr s) (fits : ∀ q ∈ tr, Fits ip q.1 q.2) : Inv ip s0 tr s := by
  induction run with
  | start =>
    refine ⟨start.usable, by simp [written, splice], rfl, fun p => ?_, fun p => ?_⟩
    · rw [start.outside p]
      rfl
    · rw [start.outside p]
      rfl
  | @next tr s s' e run taken ih =>
    have inv := ih fun q member => fits q (List.mem_append_left _ member)
    cases e with
    | advance p => exact advance_inv start inv (fits (s, .advance p) (by simp)) taken
    | write p addr =>
      simp only [step] at taken
      split at taken
      · rename_i code
        cases taken
        exact inv.silent (e := .write p addr) start rfl code (Nat.zero_le _) rfl
      · cases taken

/-- **Writes through a shared file do not overwrite each other.** In every interleaving of calls of `filewrite` by any
processes, the file holds the bytes it held before the first offset, then all chunks in the order in which they were
written, and `f->off` is behind the last one; what a process has written and what is left of its call are the bytes it
passed, each once and in order; and every call returns the number of its bytes. -/
theorem shared_writes (start : Started ip s0) (run : Run (step ip) s0 tr s) (fits : ∀ q ∈ tr, Fits ip q.1 q.2) :
    s.fs.contents ip = splice (s0.fs.contents ip) s0.off (written tr) ∧ s.off = s0.off + (written tr).length ∧
      (∀ p, writtenOf p tr ++ (s.pc p).rest = passedOf p tr) ∧ ∀ p addr r, s.pc p = .returned addr r → r = addr.length := by
  have inv := run_inv start run fits
  refine ⟨inv.contents, inv.offset, inv.own, fun p addr r code => ?_⟩
  have whole := inv.whole p
  rwa [code] at whole

/-- An empty file, shared by two processes. -/
def empty : Shared (Fin 2) := ⟨(oneInode .file).locks fun _ => false, 0, fun _ => .returned [] 0⟩

/-- Both call `filewrite`; the second one is first to write. -/
def both : List (Event (Fin 2)) := [.write 0 [1, 2], .write 1 [3], .advance 1, .advance 0, .advance 0]

/-- Neither write is lost, and they are not mixed. -/
theorem shared_writes_both : ∃ tr s, Run (step 0) empty tr s ∧ s.fs.contents 0 = [3, 1, 2] ∧ s.off = 3 ∧
    s.pc 0 = .returned [1, 2] 2 := by
  have start : Started 0 empty := by
    refine ⟨⟨?_, ⟨oneInode_loaded.2 rfl, by decide⟩, rfl⟩, Nat.zero_le _, fun _ => rfl⟩
    exact (oneInode_holeFree (show FileType.file ≠ .free by decide)).locks (fun _ => false) true []
  have room {s : State} (first : s.bitmap 900 = false) (second : s.bitmap 901 = false) : 2 ≤ s.room := by
    refine (Finset.card_pair (show (900 : Nat) ≠ 901 by decide)).ge.trans (Finset.card_le_card fun b member => ?_)
    rw [Finset.mem_insert, Finset.mem_singleton] at member
    rcases member with rfl | rfl
    · exact mem_freeBlocks.2 ⟨by decide, first⟩
    · exact mem_freeBlocks.2 ⟨by decide, second⟩
  have checked : ∀ q ∈ record (step 0) empty both, q.1.fs.bitmap 900 = false ∧ q.1.fs.bitmap 901 = false ∧
      q.1.fs.needs 0 q.1.off (writtenBy q.1 q.2).length ≤ 2 ∧ q.1.off + (writtenBy q.1 q.2).length ≤ 3 := by decide +kernel
  have final : (Lib.exec (step 0) empty both).map (fun s => (s.off, s.pc 0)) = some (3, .returned [1, 2] 2) := by decide +kernel
  obtain ⟨s, done, seen⟩ := Option.map_eq_some_iff.1 final
  obtain ⟨off, pc⟩ := Prod.mk.inj seen
  obtain ⟨contents, -⟩ := shared_writes start (run_of_exec done) fun q member => by
    obtain ⟨first, second, needs, small⟩ := checked q member
    exact ⟨needs.trans (room first second), small.trans (by decide)⟩
  exact ⟨_, s, run_of_exec done, contents.trans (by decide +kernel), off, pc⟩

end Shared

end Xv6.Fs
