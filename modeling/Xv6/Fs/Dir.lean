import Xv6.Fs.Inode

/-!
# Directories and path names

Directory entries, `dirlookup` and `dirlink`, and the walk along a path. A path is a
C string without its terminator; the buffer for one path element holds `DIRSIZ`
bytes, of which those behind a terminator are left over from earlier elements.
-/

namespace Xv6.Fs

open Xv6.Lib Xv6.Lib.Eff

/-! ## Strings -/

def slash : Byte := 0x2f

/-- The string literal `"."`. -/
def dot : List Byte := [0x2e, 0]

/-- The string literal `".."`. -/
def dotdot : List Byte := [0x2e, 0x2e, 0]

def strncmp : Nat → List Byte → List Byte → Int
  | 0, _, _ => 0
  | n + 1, p, q =>
    if p.headD 0 ≠ 0 ∧ p.headD 0 = q.headD 0 then strncmp n p.tail q.tail
    else (p.headD 0).toNat - (q.headD 0).toNat

def strncpy : Nat → List Byte → List Byte
  | 0, _ => []
  | n + 1, t => if t.headD 0 = 0 then List.replicate (n + 1) 0 else t.headD 0 :: strncpy n t.tail

def namecmp (s t : List Byte) : Int := strncmp DIRSIZ s t

/-! ## Directory entries -/

/-- Bytes of a `struct dirent`. -/
def DIRENT : Nat := 2 + DIRSIZ

/-- `de.inum` of an entry read as bytes. -/
def direntInum (de : List Byte) : Nat := (de.getD 0 0).toNat + 256 * (de.getD 1 0).toNat

/-- `de.name`. -/
def direntName (de : List Byte) : List Byte := de.drop 2

/-- The bytes of an entry. -/
def dirent (inum : Nat) (name : List Byte) : List Byte :=
  BitVec.ofNat 8 inum :: BitVec.ofNat 8 (inum / 256) :: name

/-- The offsets `off = start; off < size; off += sizeof(de)`. -/
def offsets (start size : Nat) : List Nat :=
  (List.range ((size - start + (DIRENT - 1)) / DIRENT)).map fun k => start + k * DIRENT

/-- Read the entry at `off`, or stop with `e` if it is not all there. -/
def readDirent (e : Panic) (i : Fin NINODE) (off : Nat) : M (List Byte) := do
  let got ← readi i off DIRENT
  match got with
  | some de => if de.length = DIRENT then pure de else fail e
  | none => fail e

/-- The loop of `dirlookup`: the first used entry of the given name, with its offset. -/
def dirlookupLoop (i : Fin NINODE) (name : List Byte) : List Nat → M (Option (Fin NINODE × Nat))
  | [] => pure none
  | off :: rest => do
    let de ← readDirent .dirlinkRead i off
    if direntInum de ≠ 0 ∧ namecmp name (direntName de) = 0 then do
      let ip ← iget (direntInum de)
      pure (some (ip, off))
    else dirlookupLoop i name rest

/-- Look for a directory entry in a directory. -/
def dirlookup (i : Fin NINODE) (name : List Byte) : M (Option (Fin NINODE × Nat)) := do
  let s ← state
  if (s.icache i).copy.type = .dir then dirlookupLoop i name (offsets 0 (s.icache i).copy.size)
  else fail .dirlookupNotDir

/-- The offset of the first unused entry, `fallback` if there is none. -/
def emptyDirent (i : Fin NINODE) (fallback : Nat) : List Nat → M Nat
  | [] => pure fallback
  | off :: rest => do
    let de ← readDirent .dirlinkRead i off
    if direntInum de = 0 then pure off else emptyDirent i fallback rest

/-- The loop's variable when it ends without a `break`. -/
def endOffset (size : Nat) : Nat := (size + (DIRENT - 1)) / DIRENT * DIRENT

/-- Write a new directory entry into a directory; `false` stands for -1. -/
def dirlink (i : Fin NINODE) (name : List Byte) (inum : Nat) : M Bool := do
  let found ← dirlookup i name
  match found with
  | some (ip, _) => do
    iput ip
    pure false
  | none => do
    let s ← state
    let off ← emptyDirent i (endOffset (s.icache i).copy.size) (offsets 0 (s.icache i).copy.size)
    let done ← writei i off (dirent inum (strncpy DIRSIZ name))
    if done = some DIRENT then pure true else fail .dirlink

/-! ## Paths -/

/-- Copy a path element into the buffer `name`. -/
def copyElem (name elem : List Byte) : List Byte :=
  if DIRSIZ ≤ elem.length then elem.take DIRSIZ else elem ++ 0 :: name.drop (elem.length + 1)

/-- Copy the next path element from `path` into `name`; returns the rest of the path and the buffer. -/
def skipelem (path name : List Byte) : Option (List Byte × List Byte) :=
  let path := path.dropWhile (· = slash)
  if path = [] then none
  else some ((path.dropWhile (· ≠ slash)).dropWhile (· = slash), copyElem name (path.takeWhile (· ≠ slash)))

/-- The loop of `namex`. Every round takes at least one character off the path. -/
def namexLoop : Nat → Bool → Fin NINODE → List Byte → List Byte → M (Option (Fin NINODE × List Byte))
  | 0, _, _, _, _ => pure none
  | rounds + 1, nameiparent, ip, path, name =>
    match skipelem path name with
    | none =>
      if nameiparent then do
        iput ip
        pure none
      else pure (some (ip, name))
    | some (path, name) => do
      ilock ip
      let s ← state
      if (s.icache ip).copy.type ≠ .dir then do
        iunlockput ip
        pure none
      else if nameiparent ∧ path = [] then do
        -- stop one level early
        iunlock ip
        pure (some (ip, name))
      else do
        let next ← dirlookup ip name
        iunlockput ip
        match next with
        | none => pure none
        | some (next, _) => namexLoop rounds nameiparent next path name

/-- Look up the inode for a path name, or that of its parent with the last path element. -/
def namex (cwd : Fin NINODE) (path : List Byte) (nameiparent : Bool) : M (Option (Fin NINODE × List Byte)) := do
  let ip ← (if path.head? = some slash then iget ROOTINO else idup cwd)
  namexLoop (path.length + 1) nameiparent ip path (List.replicate DIRSIZ 0)

def namei (cwd : Fin NINODE) (path : List Byte) : M (Option (Fin NINODE)) := do
  let found ← namex cwd path false
  pure (found.map Prod.fst)

def nameiparent (cwd : Fin NINODE) (path : List Byte) : M (Option (Fin NINODE × List Byte)) :=
  namex cwd path true

end Xv6.Fs
