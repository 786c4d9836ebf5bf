import Xv6.Fs.Dir

/-!
# File system calls

The system calls of `sysfile.c` with the file table of `file.c`, `exec`'s access to
the file system, and what `fork` and `exit` do with the files of a process. A call
whose code runs between `begin_op` and `end_op` is one step; a `write` is one step
for each chunk of `filewrite`, and `exit` is a step for each file it closes and one
for the current directory. Pipes are left out: they never reach the file system.
-/

namespace Xv6.Fs

open Xv6.Lib Xv6.Lib.Eff

/-! ## Calls that work on names -/

def sysLink (cwd : Fin NINODE) (old new : List Byte) : M Int := do
  let found ← namei cwd old
  match found with
  | none => pure (-1)
  | some ip => do
    ilock ip
    let s ← state
    if (s.icache ip).copy.type = .dir then do
      iunlockput ip
      pure (-1)
    else do
      setCopy ip fun d => { d with nlink := d.nlink + 1 }
      iupdate ip
      iunlock ip
      let parent ← nameiparent cwd new
      let linked ← (match parent with
        | none => pure false
        | some (dp, name) => do
          ilock dp
          let s ← state
          let linked ← dirlink dp name (s.icache ip).inum
          iunlockput dp
          pure linked)
      if linked then do
        iput ip
        pure 0
      else do
        ilock ip
        setCopy ip fun d => { d with nlink := d.nlink - 1 }
        iupdate ip
        iunlockput ip
        pure (-1)

/-- The loop of `isdirempty`. -/
def isdiremptyLoop (i : Fin NINODE) : List Nat → M Bool
  | [] => pure true
  | off :: rest => do
    let de ← readDirent .isdiremptyReadi i off
    if direntInum de ≠ 0 then pure false else isdiremptyLoop i rest

/-- Is the directory empty except for `.` and `..`? -/
def isdirempty (i : Fin NINODE) : M Bool := do
  let s ← state
  isdiremptyLoop i (offsets (2 * DIRENT) (s.icache i).copy.size)

def sysUnlink (cwd : Fin NINODE) (path : List Byte) : M Int := do
  let parent ← nameiparent cwd path
  match parent with
  | none => pure (-1)
  | some (dp, name) => do
    ilock dp
    if namecmp name dot = 0 ∨ namecmp name dotdot = 0 then do
      iunlockput dp
      pure (-1)
    else do
      let found ← dirlookup dp name
      match found with
      | none => do
        iunlockput dp
        pure (-1)
      | some (ip, off) => do
        ilock ip
        let s ← state
        if (s.icache ip).copy.nlink.toInt < 1 then fail .unlinkNlink
        else do
          let isDir := decide ((s.icache ip).copy.type = .dir)
          let empty ← (if isDir then isdirempty ip else pure true)
          if empty then do
            let done ← writei dp off (List.replicate DIRENT 0)
            if done = some DIRENT then do
              (if isDir then do
                setCopy dp fun d => { d with nlink := d.nlink - 1 }
                iupdate dp
              else pure ())
              iunlockput dp
              setCopy ip fun d => { d with nlink := d.nlink - 1 }
              iupdate ip
              iunlockput ip
              pure 0
            else fail .unlinkWritei
          else do
            iunlockput ip
            iunlockput dp
            pure (-1)

/-- The entries `.` and `..` of a new directory, with the link to the parent that `..` is. -/
def createDots (dp ip : Fin NINODE) : M Unit := do
  setCopy dp fun d => { d with nlink := d.nlink + 1 }
  iupdate dp
  let s ← state
  let own ← dirlink ip dot (s.icache ip).inum
  if own then do
    let up ← dirlink ip dotdot (s.icache dp).inum
    if up then pure () else fail .createDots
  else fail .createDots

/-- Create an inode and link it under `path`; returns it locked. -/
def create (cwd : Fin NINODE) (path : List Byte) (type : FileType) (major minor : BitVec 16) :
    M (Option (Fin NINODE)) := do
  let parent ← nameiparent cwd path
  match parent with
  | none => pure none
  | some (dp, name) => do
    ilock dp
    let found ← dirlookup dp name
    match found with
    | some (ip, _) => do
      iunlockput dp
      ilock ip
      let s ← state
      if type = .file ∧ (s.icache ip).copy.type = .file then pure (some ip)
      else do
        iunlockput ip
        pure none
    | none => do
      let ip ← ialloc type
      ilock ip
      setCopy ip fun d => { d with major := major, minor := minor, nlink := 1 }
      iupdate ip
      (if type = .dir then createDots dp ip else pure ())
      let s ← state
      let linked ← dirlink dp name (s.icache ip).inum
      if linked then do
        iunlockput dp
        pure (some ip)
      else fail .createDirlink

def O_WRONLY : BitVec 32 := 0x001
def O_RDWR : BitVec 32 := 0x002
def O_CREATE : BitVec 32 := 0x200

/-- The inode that `open` opens, locked. -/
def openInode (cwd : Fin NINODE) (path : List Byte) (omode : BitVec 32) : M (Option (Fin NINODE)) :=
  if omode &&& O_CREATE ≠ 0 then create cwd path .file 0 0
  else do
    let found ← namei cwd path
    match found with
    | none => pure none
    | some ip => do
      ilock ip
      let s ← state
      if (s.icache ip).copy.type = .dir ∧ omode ≠ 0 then do
        iunlockput ip
        pure none
      else pure (some ip)

/-- The part of `open` up to `end_op`. `room` says whether there is a free `struct file` and a free descriptor
for it. -/
def sysOpen (cwd : Fin NINODE) (path : List Byte) (omode : BitVec 32) (room : Bool) : M (Option (Fin NINODE)) := do
  let opened ← openInode cwd path omode
  match opened with
  | none => pure none
  | some ip =>
    if room then do
      iunlock ip
      pure (some ip)
    else do
      iunlockput ip
      pure none

def sysMkdir (cwd : Fin NINODE) (path : List Byte) : M Int := do
  let made ← create cwd path .dir 0 0
  match made with
  | none => pure (-1)
  | some ip => do
    iunlockput ip
    pure 0

def sysMknod (cwd : Fin NINODE) (path : List Byte) (major minor : BitVec 16) : M Int := do
  let made ← create cwd path .dev major minor
  match made with
  | none => pure (-1)
  | some ip => do
    iunlockput ip
    pure 0

/-- `chdir`; the result is the new current directory. -/
def sysChdir (cwd : Fin NINODE) (path : List Byte) : M (Option (Fin NINODE)) := do
  let found ← namei cwd path
  match found with
  | none => pure none
  | some ip => do
    ilock ip
    let s ← state
    if (s.icache ip).copy.type ≠ .dir then do
      iunlockput ip
      pure none
    else do
      iunlock ip
      iput cwd
      pure (some ip)

/-- What `exec` does between `begin_op` and `end_op`. The reads are those the headers of the program ask for, up
to the first that makes `exec` give up. -/
def exec (cwd : Fin NINODE) (path : List Byte) (reads : List (Nat × Nat)) : M Int := do
  let found ← namei cwd path
  match found with
  | none => pure (-1)
  | some ip => do
    ilock ip
    forEach (fun request => do
      let _ ← readi ip request.1 request.2
      pure ()) reads
    iunlockput ip
    pure 0

/-- One chunk of `filewrite`. -/
def writeChunk (ip : Fin NINODE) (off : Nat) (src : List Byte) : M (Option Nat) := do
  ilock ip
  let r ← writei ip off src
  iunlock ip
  pure r

/-- Most bytes `filewrite` puts in one transaction. -/
def maxChunk : Nat := (LOGSIZE - 1 - 1 - 2) / 2 * 512

/-- `begin_op(); m; end_op()`: no other operation is outstanding, so `end_op` commits. -/
def transaction {α : Type} (m : M α) : M α := do
  update fun s => { s with inTrans := true }
  let r ← m
  update fun s => { s with inTrans := false, lh := [] }
  pure r

end Xv6.Fs
