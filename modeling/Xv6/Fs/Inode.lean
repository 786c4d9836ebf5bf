import Xv6.Fs.Disk

/-!
# Inodes

The inode layer of `fs.c`: the cache of inodes in memory, the mapping from the
blocks of a file to blocks of the disk, and reading and writing the content of an
inode. There is one device, so entries of the cache are told apart by inode number
alone. Operations run one after the other, so an inode found busy is one that the
same process has locked already: `ilock` then never returns.
-/

namespace Xv6.Fs

open Xv6.Lib Xv6.Lib.Eff

/-! ## The inode cache -/

def State.setInode (i : Fin NINODE) (ip : Inode) (s : State) : State :=
  { s with icache := Function.update s.icache i ip }

def State.setDinode (inum : Nat) (d : Dinode) (s : State) : State :=
  { s with dinode := Function.update s.dinode inum d }

/-- Change the copy of the disk inode that entry `i` holds. -/
def setCopy (i : Fin NINODE) (f : Dinode → Dinode) : M Unit :=
  update fun s => s.setInode i { s.icache i with copy := f (s.icache i).copy }

/-- Find the inode with number `inum` and return the in-memory copy. -/
def iget (inum : Nat) : M (Fin NINODE) := do
  let s ← state
  match (List.finRange NINODE).find? fun i => 0 < (s.icache i).ref ∧ (s.icache i).inum = inum with
  | some i =>
    update (State.setInode i { s.icache i with ref := (s.icache i).ref + 1 })
    pure i
  | none =>
    match (List.finRange NINODE).find? fun i => (s.icache i).ref = 0 with
    | none => fail .igetNoInodes
    | some i =>
      -- recycle an entry; its copy is stale until `ilock` reads the inode
      update (State.setInode i { s.icache i with inum := inum, ref := 1, busy := false, valid := false })
      pure i

/-- Allocate a new inode with the given type. -/
def ialloc (type : FileType) : M (Fin NINODE) := do
  let s ← state
  match (List.range' 1 (sb.ninodes - 1)).find? fun inum => (s.dinode inum).type = .free with
  | none => fail .iallocNoInodes
  | some inum =>
    update (State.setDinode inum (.blank type))
    logWrite (IBLOCK inum)
    iget inum

/-- Copy a modified in-memory inode to disk. -/
def iupdate (i : Fin NINODE) : M Unit := do
  let s ← state
  update (State.setDinode (s.icache i).inum (s.icache i).copy)
  logWrite (IBLOCK (s.icache i).inum)

/-- Increment the reference count. -/
def idup (i : Fin NINODE) : M (Fin NINODE) := do
  update fun s => s.setInode i { s.icache i with ref := (s.icache i).ref + 1 }
  pure i

/-- Lock the given inode; reads it from disk if necessary. -/
def ilock (i : Fin NINODE) : M Unit := do
  let s ← state
  if (s.icache i).ref < 1 then fail .ilock
  else if (s.icache i).busy then fail .deadlock
  else if (s.icache i).valid then update (State.setInode i { s.icache i with busy := true })
  else do
    update (State.setInode i
      { s.icache i with busy := true, valid := true, copy := s.dinode (s.icache i).inum })
    if (s.dinode (s.icache i).inum).type = .free then fail .ilockNoType else pure ()

/-- Unlock the given inode. -/
def iunlock (i : Fin NINODE) : M Unit := do
  let s ← state
  if (s.icache i).busy ∧ 1 ≤ (s.icache i).ref then
    update (State.setInode i { s.icache i with busy := false })
  else fail .iunlock

/-! ## Content -/

/-- `addrs[k]` of entry `i`, with a fresh block in it if there was none. -/
def loadAddr (i : Fin NINODE) (k : Nat) : M Nat := do
  let s ← state
  if (s.icache i).copy.addrs k = 0 then do
    let b ← balloc
    setCopy i fun d => { d with addrs := Function.update d.addrs k b }
    pure b
  else pure ((s.icache i).copy.addrs k)

/-- Entry `j` of the indirect block `a`, with a fresh block in it if there was none. -/
def loadEntry (a j : Nat) : M Nat := do
  let s ← state
  if word (s.block a) j = 0 then do
    let b ← balloc
    update fun s => s.setBlock a (setWord (s.block a) j b)
    logWrite a
    pure b
  else pure (word (s.block a) j)

/-- The disk block address of block `bn` of inode `i`; allocates one if there is none. -/
def bmap (i : Fin NINODE) (bn : Nat) : M Nat :=
  if bn < NDIRECT then loadAddr i bn
  else if bn - NDIRECT < NINDIRECT then do
    let a ← loadAddr i NDIRECT
    loadEntry a (bn - NDIRECT)
  else fail .bmapOutOfRange

/-- Truncate an inode: free its direct blocks, the blocks listed in its indirect block, and that block. -/
def itrunc (i : Fin NINODE) : M Unit := do
  forEach (fun k => do
    let s ← state
    if (s.icache i).copy.addrs k = 0 then pure () else do
      bfree ((s.icache i).copy.addrs k)
      setCopy i fun d => { d with addrs := Function.update d.addrs k 0 }) (List.range NDIRECT)
  let s ← state
  let a := (s.icache i).copy.addrs NDIRECT
  (if a = 0 then pure () else do
    forEach (fun j => do
      let s ← state
      if word (s.block a) j = 0 then pure () else bfree (word (s.block a) j)) (List.range NINDIRECT)
    bfree a
    setCopy i fun d => { d with addrs := Function.update d.addrs NDIRECT 0 })
  setCopy i fun d => { d with size := 0 }
  iupdate i

/-- Drop a reference to an in-memory inode. With the last reference to an inode that has no links the
inode and its content are freed on disk. -/
def iput (i : Fin NINODE) : M Unit := do
  let s ← state
  (if (s.icache i).ref = 1 ∧ (s.icache i).valid ∧ (s.icache i).copy.nlink = 0 then
    if (s.icache i).busy then fail .iputBusy else do
      update (State.setInode i { s.icache i with busy := true })
      itrunc i
      setCopy i fun d => { d with type := .free }
      iupdate i
      update fun s => s.setInode i { s.icache i with busy := false, valid := false }
  else pure ())
  update fun s => s.setInode i { s.icache i with ref := (s.icache i).ref - 1 }

def iunlockput (i : Fin NINODE) : M Unit := do
  iunlock i
  iput i

/-- The loop of `readi` over the blocks of the request. Every round takes at least one byte, so as many
rounds as bytes are enough. -/
def readiLoop : Nat → Fin NINODE → Nat → Nat → M (List Byte)
  | 0, _, _, _ => pure []
  | rounds + 1, i, off, n =>
    if n = 0 then pure [] else do
      let b ← bmap i (off / BSIZE)
      let s ← state
      let m := min n (BSIZE - off % BSIZE)
      let rest ← readiLoop rounds i (off + m) (n - m)
      pure (bytes (s.block b) (off % BSIZE) m ++ rest)

/-- Read data from an inode; `none` stands for -1. What a device returns is no part of the file system:
reading one gives nothing here. -/
def readi (i : Fin NINODE) (off n : Nat) : M (Option (List Byte)) := do
  let s ← state
  let ip := (s.icache i).copy
  if ip.type = .dev then pure none
  else if off > ip.size ∨ 2 ^ 32 ≤ off + n then pure none
  else do
    let m := if off + n > ip.size then ip.size - off else n
    let data ← readiLoop m i off m
    pure (some data)

/-- The loop of `writei` over the blocks of the request. -/
def writeiLoop : Nat → Fin NINODE → Nat → List Byte → M Unit
  | 0, _, _, _ => pure ()
  | rounds + 1, i, off, src =>
    if src = [] then pure () else do
      let b ← bmap i (off / BSIZE)
      let m := min src.length (BSIZE - off % BSIZE)
      update fun s => s.setBlock b (patch (s.block b) (off % BSIZE) (src.take m))
      logWrite b
      writeiLoop rounds i (off + m) (src.drop m)

/-- Only the console has a driver. -/
def devHasWrite (major : BitVec 16) : Bool := major = 1

/-- Write data to an inode; `none` stands for -1, and otherwise all of `src` has been written. -/
def writei (i : Fin NINODE) (off : Nat) (src : List Byte) : M (Option Nat) := do
  let s ← state
  let ip := (s.icache i).copy
  if ip.type = .dev then
    if devHasWrite ip.major then pure (some src.length) else pure none
  else if off > ip.size ∨ 2 ^ 32 ≤ off + src.length then pure none
  else if off + src.length > MAXFILE * BSIZE then pure none
  else do
    writeiLoop src.length i off src
    (if 0 < src.length ∧ off + src.length > ip.size then do
      setCopy i fun d => { d with size := off + src.length }
      iupdate i
    else pure ())
    pure (some src.length)

end Xv6.Fs
