import Xv6.Lib.Effect
import Xv6.Param

/-!
# The disk of the file system

The layout that `fs.h` and the superblock of `mkfs.c` fix, what the disk holds as
the buffer cache shows it, and the block allocator of `fs.c`.

```
block 0      1           2 .. 27   28       29 .. 993   994 .. 1023
      boot   superblock  inodes    bitmap   data        log
```

The regions are kept apart: inodes by number, the bitmap by block number and the
contents of data blocks by block number. File system code runs inside a
transaction; every `log_write` and every block that `balloc` hands out is an
observation of the execution.
-/

namespace Xv6.Fs

open Xv6.Lib

/-! ## Layout -/

def BSIZE : Nat := 512
def NDIRECT : Nat := 12
def NINDIRECT : Nat := BSIZE / 4
def MAXFILE : Nat := NDIRECT + NINDIRECT
def DIRSIZ : Nat := 14
def ROOTINO : Nat := 1

/-- Inodes per block: a `struct dinode` takes 64 bytes. -/
def IPB : Nat := BSIZE / 64

/-- Bitmap bits per block. -/
def BPB : Nat := BSIZE * 8

structure Superblock where
  size : Nat
  nblocks : Nat
  ninodes : Nat
  nlog : Nat

/-- The superblock `mkfs` writes; the kernel never changes it. -/
def sb : Superblock := ⟨1024, 995 - LOGSIZE, 200, LOGSIZE⟩

/-- Block containing inode `i`. -/
def IBLOCK (i : Nat) : Nat := i / IPB + 2

/-- Block containing the bit for block `b`. -/
def BBLOCK (b : Nat) : Nat := b / BPB + sb.ninodes / IPB + 3

/-- The first block after the bitmap. -/
def firstData : Nat := sb.ninodes / IPB + 3 + (sb.size / BPB + 1)

/-- The data area ends where the log begins (`initlog`). -/
def logStart : Nat := sb.size - sb.nlog

/-- A block of the data area. -/
def DataBlock (b : Nat) : Prop := firstData ≤ b ∧ b < logStart

instance (b : Nat) : Decidable (DataBlock b) := inferInstanceAs (Decidable (_ ∧ _))

/-! ## Contents -/

abbrev Byte := BitVec 8

/-- `a[j]` of a block read as an array of `uint`. -/
def word (data : Nat → Byte) (j : Nat) : Nat :=
  (data (4 * j)).toNat + 256 * (data (4 * j + 1)).toNat + 65536 * (data (4 * j + 2)).toNat +
    16777216 * (data (4 * j + 3)).toNat

/-- `a[j] = v`. -/
def setWord (data : Nat → Byte) (j v : Nat) : Nat → Byte :=
  fun k => if k / 4 = j then BitVec.ofNat 8 (v / 256 ^ (k % 4)) else data k

/-- `memmove(data + at, src, src.length)`. -/
def patch (data : Nat → Byte) (start : Nat) (src : List Byte) : Nat → Byte :=
  fun k => if start ≤ k ∧ k < start + src.length then src.getD (k - start) 0 else data k

/-- The `m` bytes of a block from `start` on. -/
def bytes (data : Nat → Byte) (start m : Nat) : List Byte :=
  (List.range m).map fun k => data (start + k)

/-- The type of an inode; a free inode has type 0. -/
inductive FileType
  | free
  | dir
  | file
  | dev
deriving DecidableEq, Repr

/-- `struct dinode`. -/
structure Dinode where
  type : FileType
  major : BitVec 16
  minor : BitVec 16
  nlink : BitVec 16
  size : Nat
  addrs : Nat → Nat

/-- The zeroed inode of a given type. -/
def Dinode.blank (type : FileType) : Dinode := ⟨type, 0, 0, 0, 0, fun _ => 0⟩

/-- `struct inode`, an entry of the inode cache: the flags `I_BUSY` and `I_VALID`, and the copy of the
disk inode. -/
structure Inode where
  inum : Nat
  ref : Nat
  busy : Bool
  valid : Bool
  copy : Dinode

/-- What the file system code works on: the bitmap, the inodes and the data blocks of the disk as seen
through the buffer cache, the inode cache, whether a transaction is open, and the blocks it has logged (`log.lh`). -/
structure State where
  bitmap : Nat → Bool
  dinode : Nat → Dinode
  block : Nat → Nat → Byte
  icache : Fin NINODE → Inode
  inTrans : Bool
  lh : List Nat

/-- The calls of `panic`, and a process that waits for a lock it holds itself. -/
inductive Panic
  | ballocOutOfBlocks
  | freeingFreeBlock
  | tooBigATransaction
  | logWriteOutsideOfTrans
  | iallocNoInodes
  | igetNoInodes
  | ilock
  | ilockNoType
  | iunlock
  | iputBusy
  | bmapOutOfRange
  | dirlookupNotDir
  | dirlinkRead
  | dirlink
  | isdiremptyReadi
  | unlinkNlink
  | unlinkWritei
  | createDots
  | createDirlink
  | filedup
  | fileclose
  | fileread
  | filewrite
  | deadlock
deriving DecidableEq, Repr

/-- What an execution leaves in its trace: for each block `balloc` returns the bitmap that it was chosen from. -/
inductive Effect
  | alloc (before : Nat → Bool) (b : Nat)

/-- File system code. -/
abbrev M := Eff State Panic Effect

open Eff

/-! ## Blocks -/

/-- Block `b` is in the log; one that is there already takes no further place. -/
def State.absorb (b : Nat) (s : State) : State := { s with lh := if b ∈ s.lh then s.lh else s.lh ++ [b] }

def logWrite (b : Nat) : M Unit := do
  let s ← state
  if LOGSIZE ≤ s.lh.length ∨ sb.nlog - 1 ≤ s.lh.length then fail .tooBigATransaction
  else if s.inTrans then update (State.absorb b) else fail .logWriteOutsideOfTrans

def State.setBit (b : Nat) (v : Bool) (s : State) : State := { s with bitmap := Function.update s.bitmap b v }

def State.setBlock (b : Nat) (data : Nat → Byte) (s : State) : State := { s with block := Function.update s.block b data }

/-- Zero a block. -/
def bzero (b : Nat) : M Unit := do
  update (State.setBlock b fun _ => 0)
  logWrite b

/-- Allocate a zeroed disk block. -/
def balloc : M Nat := do
  let s ← state
  match (List.range sb.size).find? fun b => !s.bitmap b with
  | none => fail .ballocOutOfBlocks
  | some b =>
    update (State.setBit b true)
    logWrite (BBLOCK b)
    bzero b
    emit (.alloc s.bitmap b)
    pure b

/-- Free a disk block. -/
def bfree (b : Nat) : M Unit := do
  let s ← state
  if s.bitmap b then do
    update (State.setBit b false)
    logWrite (BBLOCK b)
  else fail .freeingFreeBlock

end Xv6.Fs
