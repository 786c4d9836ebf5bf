import Mathlib

/-!
# Constants

The constants of `param.h`, `proc.h` and `traps.h` that the model uses, under
the names the source gives them.
-/

namespace Xv6

/-- Slots of the process table. -/
def NPROC : Nat := 64

/-- Tickets of an ordinary process in the lottery. -/
def EXE_TICKETS : Int := 10

/-- How much more the head of the queue weighs than the rest. -/
def FIFO_DIFFERECE : Int := 100

/-- Signals of a process. -/
def SIGNUM : Nat := 32

/-- Blocks one file system operation may log. -/
def MAXOPBLOCKS : Nat := 10

/-- Data sectors of the on-disk log. -/
def LOGSIZE : Nat := MAXOPBLOCKS * 3

/-- Size of the disk block cache. -/
def NBUF : Nat := MAXOPBLOCKS * 3

/-- Entries of the inode cache. -/
def NINODE : Nat := 50

/-- Entries of the table of open files. -/
def NFILE : Nat := 100

/-- File descriptors of a process. -/
def NOFILE : Nat := 16

instance : NeZero NPROC := ⟨by decide⟩

instance : NeZero SIGNUM := ⟨by decide⟩

instance : NeZero NBUF := ⟨by decide⟩

instance : NeZero NINODE := ⟨by decide⟩

instance : NeZero NFILE := ⟨by decide⟩

end Xv6
