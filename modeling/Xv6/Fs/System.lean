import Xv6.Lib.Run
import Xv6.Fs.Syscall

/-!
# The system

Processes with their current directories and open files, over one file system. An
event is one call of a process; the state after a panic does not matter, but what
was logged and allocated up to it does.
-/

namespace Xv6.Fs

open Xv6.Lib Xv6.Lib.Eff

/-- `FD_NONE` and `FD_INODE`. -/
inductive FdType
  | none
  | inode
deriving DecidableEq, Repr

/-- `struct file`. -/
structure File where
  type : FdType
  ref : Nat
  readable : Bool
  writable : Bool
  ip : Fin NINODE
  off : Nat

/-- What a process holds of the file system. -/
structure Proc where
  cwd : Fin NINODE
  ofile : Nat → Option (Fin NFILE)

structure System where
  fs : State
  ftable : Fin NFILE → File
  proc : Fin NPROC → Option Proc

/-- The first process, which must not exit. -/
def initproc : Fin NPROC := 0

/-- The calls. `write` is one chunk of `filewrite`, `exit` the part of `exit` after the files are closed. -/
inductive Call
  | open (path : List Byte) (omode : BitVec 32)
  | link (old new : List Byte)
  | unlink (path : List Byte)
  | mkdir (path : List Byte)
  | mknod (path : List Byte) (major minor : BitVec 16)
  | chdir (path : List Byte)
  | close (fd : Nat)
  | exec (path : List Byte) (reads : List (Nat × Nat))
  | write (fd : Nat) (src : List Byte)
  | read (fd : Nat) (n : Nat)
  | dup (fd : Nat)
  | fork (child : Fin NPROC)
  | exit

/-! ## The file table -/

/-- Allocate a file structure. -/
def filealloc (ftable : Fin NFILE → File) : Option (Fin NFILE) :=
  (List.finRange NFILE).find? fun f => (ftable f).ref = 0

/-- Allocate a file descriptor. -/
def fdalloc (q : Proc) : Option Nat := (List.range NOFILE).find? fun fd => q.ofile fd = none

/-- The file behind a descriptor. -/
def argfd (q : Proc) (fd : Nat) : Option (Fin NFILE) := if fd < NOFILE then q.ofile fd else none

namespace System

def setFile (f : Fin NFILE) (file : File) (s : System) : System :=
  { s with ftable := Function.update s.ftable f file }

def setProc (p : Fin NPROC) (q : Option Proc) (s : System) : System :=
  { s with proc := Function.update s.proc p q }

/-- Increment the reference count of a file. -/
def filedup (f : Fin NFILE) (s : System) : Except Panic System :=
  if (s.ftable f).ref < 1 then .error .filedup
  else .ok (s.setFile f { s.ftable f with ref := (s.ftable f).ref + 1 })

/-- The outcome of file system code in the system. -/
def after {α : Type} (s : System) (m : M α) (next : α → System → System) : Except Panic System × List Effect :=
  ((m s.fs).1.map fun r => next r { s with fs := (m s.fs).2.1 }, (m s.fs).2.2)

/-- An outcome that does not involve the file system. -/
def plain (r : Except Panic System) : Except Panic System × List Effect := (r, [])

/-- Close a file: with the last reference its inode is put. -/
def fileclose (f : Fin NFILE) (s : System) : Except Panic System × List Effect :=
  if (s.ftable f).ref < 1 then plain (.error .fileclose)
  else if 1 < (s.ftable f).ref then plain (.ok (s.setFile f { s.ftable f with ref := (s.ftable f).ref - 1 }))
  else
    let closed := s.setFile f { s.ftable f with ref := 0, type := .none }
    match (s.ftable f).type with
    | .none => plain (.ok closed)
    | .inode => closed.after (transaction (iput (s.ftable f).ip)) fun _ s => s

/-- The descriptors of a process duplicated for its child. -/
def filedupAll (q : Proc) (s : System) : Except Panic System :=
  (List.range NOFILE).foldlM (fun s fd => match q.ofile fd with
    | none => .ok s
    | some f => s.filedup f) s

/-- The file that `open` sets up. -/
def openedFile (ip : Fin NINODE) (omode : BitVec 32) : File :=
  { type := .inode, ref := 1, readable := omode &&& O_WRONLY = 0,
    writable := omode &&& O_WRONLY ≠ 0 ∨ omode &&& O_RDWR ≠ 0, ip := ip, off := 0 }

/-- Install what `open` opened; nothing was opened if there was no room for it. -/
def install (p : Fin NPROC) (q : Proc) (omode : BitVec 32) (opened : Option (Fin NINODE)) (s : System) : System :=
  match opened, filealloc s.ftable, fdalloc q with
  | some ip, some f, some fd =>
    (s.setFile f (openedFile ip omode)).setProc p (some { q with ofile := Function.update q.ofile fd (some f) })
  | _, _, _ => s

/-- Advance the offset of a file by what was transferred. -/
def advance (f : Fin NFILE) (n : Nat) (s : System) : System :=
  s.setFile f { s.ftable f with off := (s.ftable f).off + n }

/-- `sys_write` for one chunk. -/
def filewrite (f : Fin NFILE) (src : List Byte) (s : System) : Except Panic System × List Effect :=
  if (s.ftable f).writable then
    match (s.ftable f).type with
    | .none => plain (.error .filewrite)
    | .inode => s.after (transaction (writeChunk (s.ftable f).ip (s.ftable f).off src))
        fun r s => s.advance f (r.getD 0)
  else plain (.ok s)

/-- `fileread`; it runs outside of a transaction. -/
def fileread (f : Fin NFILE) (n : Nat) (s : System) : Except Panic System × List Effect :=
  if (s.ftable f).readable then
    match (s.ftable f).type with
    | .none => plain (.error .fileread)
    | .inode =>
      s.after (do
        ilock (s.ftable f).ip
        let r ← readi (s.ftable f).ip (s.ftable f).off n
        iunlock (s.ftable f).ip
        pure r) fun r s => s.advance f (r.getD []).length
  else plain (.ok s)

/-- A call of process `p` that holds `q`; `none` if the process cannot make it. -/
def perform (s : System) (p : Fin NPROC) (q : Proc) : Call → Option (Except Panic System × List Effect)
  | .open path omode =>
    some (s.after (transaction (sysOpen q.cwd path omode ((filealloc s.ftable).isSome ∧ (fdalloc q).isSome)))
      fun opened s => s.install p q omode opened)
  | .link old new => some (s.after (transaction (sysLink q.cwd old new)) fun _ s => s)
  | .unlink path => some (s.after (transaction (sysUnlink q.cwd path)) fun _ s => s)
  | .mkdir path => some (s.after (transaction (sysMkdir q.cwd path)) fun _ s => s)
  | .mknod path major minor => some (s.after (transaction (sysMknod q.cwd path major minor)) fun _ s => s)
  | .chdir path =>
    some (s.after (transaction (sysChdir q.cwd path)) fun moved s =>
      match moved with
      | none => s
      | some ip => s.setProc p (some { q with cwd := ip }))
  | .close fd =>
    match argfd q fd with
    | none => some (plain (.ok s))
    | some f => some ((s.setProc p (some { q with ofile := Function.update q.ofile fd none })).fileclose f)
  | .exec path reads => some (s.after (transaction (Fs.exec q.cwd path reads)) fun _ s => s)
  | .write fd src =>
    if 0 < src.length ∧ src.length ≤ maxChunk then
      match argfd q fd with
      | none => some (plain (.ok s))
      | some f => some (s.filewrite f src)
    else none
  | .read fd n =>
    match argfd q fd with
    | none => some (plain (.ok s))
    | some f => some (s.fileread f n)
  | .dup fd =>
    match argfd q fd, fdalloc q with
    | some f, some new =>
      some (plain ((s.filedup f).map fun s =>
        s.setProc p (some { q with ofile := Function.update q.ofile new (some f) })))
    | _, _ => some (plain (.ok s))
  | .fork child =>
    if s.proc child = none then
      some (match s.filedupAll q with
        | .error e => plain (.error e)
        | .ok s => s.after (idup q.cwd) fun _ s => s.setProc child (some q))
    else none
  | .exit =>
    if p ≠ initproc ∧ ∀ fd < NOFILE, q.ofile fd = none then
      some (s.after (transaction (iput q.cwd)) fun _ s => s.setProc p none)
    else none

/-- What a call of process `p` does. -/
def call (s : System) (p : Fin NPROC) (c : Call) : Option (Except Panic System × List Effect) :=
  match s.proc p with
  | none => none
  | some q => s.perform p q c

/-- The state after a call that returns. -/
def step (s : System) (e : Fin NPROC × Call) : Option System :=
  match s.call e.1 e.2 with
  | some (.ok s', _) => some s'
  | _ => none

end System

/-- What is on the disk. -/
structure Disk where
  bitmap : Nat → Bool
  dinode : Nat → Dinode
  block : Nat → Nat → Byte

/-- The file system at boot: the inode cache is empty. -/
def Disk.boot (disk : Disk) : State where
  bitmap := disk.bitmap
  dinode := disk.dinode
  block := disk.block
  icache := fun _ => ⟨0, 0, false, false, .blank .free⟩
  inTrans := false
  lh := []

/-- The first process: it is in the root directory and has no open files. -/
def System.userinit (disk : Disk) : System :=
  let booted := namei 0 [slash] disk.boot
  { fs := booted.2.1
    ftable := fun _ => ⟨.none, 0, false, false, 0, 0⟩
    proc := Function.update (fun _ => none) initproc (booted.1.toOption.join.map fun ip => ⟨ip, fun _ => none⟩) }

end Xv6.Fs
