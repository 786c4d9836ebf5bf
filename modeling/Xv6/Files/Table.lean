import Xv6.Lib.Effect
import Xv6.Lib.Run
import Xv6.Param

/-!
# Open files and pipes

The table of `struct file`, the descriptors of the processes and the pages of the
pipes: `filealloc`, `filedup` and `fileclose` of `file.c`, `pipealloc` and `pipeclose`
of `pipe.c`, and the calls that move references. What a call allocates and frees of
pages is an observation of its execution. Inodes are left out; of `open` only its
success in the file system matters here.
-/

namespace Xv6.Files

open Xv6.Lib Xv6.Lib.Eff

/-- `FD_NONE`, `FD_PIPE` with the page of the pipe, `FD_INODE`. -/
inductive FdType (Page : Type) where
  | none
  | pipe (page : Page)
  | inode
  deriving DecidableEq, Repr

/-- `struct file`. -/
structure File (Page : Type) where
  type : FdType Page
  ref : Nat
  readable : Bool
  writable : Bool

/-- What decides over the life of a `struct pipe`. -/
structure Pipe where
  readopen : Bool
  writeopen : Bool
  deriving DecidableEq, Repr

abbrev FilePtr := Fin NFILE
abbrev Fd := Fin NOFILE
abbrev ProcPtr := Fin NPROC

structure State (Page : Type) where
  ftable : FilePtr → File Page
  pipe : Page → Pipe
  ofile : ProcPtr → Fd → Option FilePtr
  /-- the slots of processes that have not exited -/
  live : ProcPtr → Bool

inductive Panic where
  | filedup
  | fileclose
  | initExiting
  deriving DecidableEq, Repr

/-- A page that is allocated for a pipe, or given back. -/
inductive PageEvent (Page : Type) where
  | kalloc (page : Page)
  | kfree (page : Page)
  deriving DecidableEq, Repr

variable {Page : Type}

abbrev M (Page : Type) := Eff (State Page) Panic (PageEvent Page)

namespace State

def setFile (s : State Page) (f : FilePtr) (file : File Page) : State Page :=
  { s with ftable := Function.update s.ftable f file }

def setPipe [DecidableEq Page] (s : State Page) (x : Page) (pipe : Pipe) : State Page :=
  { s with pipe := Function.update s.pipe x pipe }

def setFd (s : State Page) (p : ProcPtr) (fd : Fd) (f : Option FilePtr) : State Page :=
  { s with ofile := Function.update s.ofile p (Function.update (s.ofile p) fd f) }

end State

/-! ## `file.c` and `pipe.c` -/

/-- Allocate a file structure. -/
def filealloc : M Page (Option FilePtr) := do
  let s ← state
  match (List.finRange NFILE).find? fun f => (s.ftable f).ref = 0 with
  | none => pure none
  | some f => do
    update fun s => s.setFile f { s.ftable f with ref := 1 }
    pure (some f)

/-- Increment ref count for file `f`. -/
def filedup (f : FilePtr) : M Page FilePtr := do
  let s ← state
  if (s.ftable f).ref < 1 then fail .filedup
  else do
    update fun s => s.setFile f { s.ftable f with ref := (s.ftable f).ref + 1 }
    pure f

section
variable [DecidableEq Page]

/-- Close one end; the page goes when both are closed. -/
def pipeclose (x : Page) (writable : Bool) : M Page Unit := do
  update fun s => s.setPipe x
    (if writable then { s.pipe x with writeopen := false } else { s.pipe x with readopen := false })
  let s ← state
  if (s.pipe x).readopen = false ∧ (s.pipe x).writeopen = false then emit (.kfree x) else pure ()

/-- Close file `f`: decrement ref count, close when it reaches 0. -/
def fileclose (f : FilePtr) : M Page Unit := do
  let s ← state
  let ff := s.ftable f
  if ff.ref < 1 then fail .fileclose
  else if ff.ref - 1 > 0 then update fun s => s.setFile f { ff with ref := ff.ref - 1 }
  else do
    update fun s => s.setFile f { ff with ref := 0, type := .none }
    match ff.type with
    | .pipe x => pipeclose x ff.writable
    | .none | .inode => pure ()

/-- What `goto bad` in `pipealloc` closes. -/
def closeSome : Option FilePtr → M Page Unit
  | none => pure ()
  | some f => fileclose f

/-- Allocate the two files and the page of a pipe; `page` is what `kalloc` returns. -/
def pipealloc (page : Option Page) : M Page (Option (FilePtr × FilePtr)) := do
  let f0 ← filealloc
  let f1 ← (if f0.isSome then filealloc else pure none)
  match f0, f1, page with
  | some f0, some f1, some x => do
    emit (.kalloc x)
    update fun s => s.setPipe x ⟨true, true⟩
    update fun s => s.setFile f0 { s.ftable f0 with type := .pipe x, readable := true, writable := false }
    update fun s => s.setFile f1 { s.ftable f1 with type := .pipe x, readable := false, writable := true }
    pure (some (f0, f1))
  | _, _, _ => do
    closeSome f0
    closeSome f1
    pure none

end

/-! ## `sysfile.c` -/

/-- The file behind a descriptor. -/
def argfd (p : ProcPtr) (fd : Nat) : M Page (Option (Fd × FilePtr)) := do
  let s ← state
  if bound : fd < NOFILE then pure ((s.ofile p ⟨fd, bound⟩).map fun f => (⟨fd, bound⟩, f)) else pure none

/-- Allocate a file descriptor for the given file. -/
def fdalloc (p : ProcPtr) (f : FilePtr) : M Page (Option Fd) := do
  let s ← state
  match (List.finRange NOFILE).find? fun fd => s.ofile p fd = none with
  | none => pure none
  | some fd => do
    update fun s => s.setFd p fd (some f)
    pure (some fd)

def sysDup (p : ProcPtr) (fd : Nat) : M Page (Option Fd) := do
  match ← argfd p fd with
  | none => pure none
  | some (_, f) =>
    match ← fdalloc p f with
    | none => pure none
    | some new => do
      let _ ← filedup f
      pure (some new)

section
variable [DecidableEq Page]

def sysClose (p : ProcPtr) (fd : Nat) : M Page Int := do
  match ← argfd p fd with
  | none => pure (-1)
  | some (fd, f) => do
    update fun s => s.setFd p fd none
    fileclose f
    pure 0

/-- `open`; `found` says whether the file system has the inode. -/
def sysOpen (p : ProcPtr) (found readable writable : Bool) : M Page (Option Fd) := do
  if found then
    match ← filealloc with
    | none => pure none
    | some f =>
      match ← fdalloc p f with
      | none => do
        fileclose f
        pure none
      | some fd => do
        update fun s => s.setFile f { s.ftable f with type := .inode, readable := readable, writable := writable }
        pure (some fd)
  else pure none

def sysPipe (p : ProcPtr) (page : Option Page) : M Page (Option (Fd × Fd)) := do
  match ← pipealloc page with
  | none => pure none
  | some (rf, wf) => do
    let fd0 ← fdalloc p rf
    let fd1 ← (if fd0.isSome then fdalloc p wf else pure none)
    match fd0, fd1 with
    | some fd0, some fd1 => pure (some (fd0, fd1))
    | _, _ => do
      (match fd0 with
        | some fd0 => update fun s => s.setFd p fd0 none
        | none => pure ())
      fileclose rf
      fileclose wf
      pure none

/-- The loop of `fork` over the descriptors of the parent. -/
def dupAll (p child : ProcPtr) : M Page Unit :=
  forEach (fun fd => do
    let s ← state
    match s.ofile p fd with
    | none => pure ()
    | some f => do
      let f ← filedup f
      update fun s => s.setFd child fd (some f)) (List.finRange NOFILE)

/-- The part of `fork` after `allocproc` and `copyuvm` have succeeded. -/
def fork (p child : ProcPtr) : M Page Unit := do
  dupAll p child
  update fun s => { s with live := Function.update s.live child true }

/-- The loop of `exit` over the descriptors. -/
def closeAll (p : ProcPtr) : M Page Unit :=
  forEach (fun fd => do
    let s ← state
    match s.ofile p fd with
    | none => pure ()
    | some f => do
      fileclose f
      update fun s => s.setFd p fd none) (List.finRange NOFILE)

/-- The process that must not exit. -/
def initproc : ProcPtr := 0

def exit (p : ProcPtr) : M Page Unit := do
  if p = initproc then fail .initExiting
  else do
    closeAll p
    update fun s => { s with live := Function.update s.live p false }

end

/-! ## The calls -/

inductive Call (Page : Type) where
  | open (found readable writable : Bool)
  | dup (fd : Nat)
  | close (fd : Nat)
  | pipe (page : Option Page)
  /-- `fork`; without a child when a slot or memory is missing -/
  | fork (child : Option ProcPtr)
  | exit

section
variable [DecidableEq Page]

/-- The code of a call. -/
def code (p : ProcPtr) : Call Page → M Page Unit
  | .open found readable writable => do let _ ← sysOpen p found readable writable
  | .dup fd => do let _ ← sysDup p fd
  | .close fd => do let _ ← sysClose p fd
  | .pipe page => do let _ ← sysPipe p page
  | .fork (some child) => fork p child
  | .fork none => pure ()
  | .exit => exit p

/-- A call can be made by a process; `fork` gets the slot of no process, and `kalloc` a page of no open pipe. -/
def Enabled (s : State Page) (p : ProcPtr) : Call Page → Prop
  | .pipe (some x) => s.live p = true ∧ s.pipe x = ⟨false, false⟩
  | .fork (some child) => s.live p = true ∧ s.live child = false
  | _ => s.live p = true

instance (s : State Page) (p : ProcPtr) (c : Call Page) : Decidable (Enabled s p c) := by
  unfold Enabled
  split <;> infer_instance

/-- The state after a call that returns. -/
def step (s : State Page) (e : ProcPtr × Call Page) : Option (State Page) :=
  if Enabled s e.1 e.2 then
    match code e.1 e.2 s with
    | (.ok _, s', _) => some s'
    | (.error _, _, _) => none
  else none

/-- The pages that a call allocates and frees. -/
def pages (s : State Page) (e : ProcPtr × Call Page) : List (PageEvent Page) := (code e.1 e.2 s).2.2

end

/-- After boot: no open files, and the first process. -/
def init : State Page where
  ftable := fun _ => ⟨.none, 0, false, false⟩
  pipe := fun _ => ⟨false, false⟩
  ofile := fun _ _ => none
  live := fun p => p = initproc

end Xv6.Files
