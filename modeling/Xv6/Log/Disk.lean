import Xv6.Lib.Writes
import Xv6.Param

/-!
# The log on the disk

`log.c` below its lock: the on-disk header, copying the transaction to the log,
installing it at its home sectors, `commit` and `recover_from_log`. A buffer
without `B_DIRTY` mirrors its sector, so the buffer cache is the disk with the
dirty buffers over it. A machine also records the disk writes it made since it
was switched on, in order: a crash leaves a prefix of them on the disk.
-/

namespace Xv6.Log

open Xv6.Lib

/-- A sector number, `uint` in the source. -/
abbrev Sector := BitVec 32

instance Sector.decidableMem (s : Sector) (l : List Sector) : Decidable (s ∈ l) := inferInstance

/-- The contents of a sector, read as the `int` array that the header overlays. -/
abbrev Block := Fin 128 → BitVec 32

/-- A disk: its sectors. -/
abbrev Disk := Sector → Block

/-- `log.start` and `log.size`: the header is sector `start`, the log blocks follow it. -/
structure Geometry where
  start : Sector
  size : Nat
  fits : start.toNat + size ≤ 2 ^ 32

/-- The log of an image that `mkfs` writes: `sb.size = 1024` and `sb.nlog = LOGSIZE`. -/
def mkfsLog : Geometry := ⟨1024 - BitVec.ofNat 32 LOGSIZE, LOGSIZE, by decide⟩

/-- Sector `log.start + tail + 1`. -/
def Geometry.block (g : Geometry) (tail : Nat) : Sector := g.start + BitVec.ofNat 32 (tail + 1)

/-- The sector belongs to the log area. -/
def Geometry.InLog (g : Geometry) (s : Sector) : Prop :=
  g.start.toNat ≤ s.toNat ∧ s.toNat < g.start.toNat + g.size

/-! ## The header -/

/-- `struct logheader`: `sector[0..n)` of an array of `LOGSIZE` entries. -/
structure LogHeader where
  sector : List Sector
  bounded : sector.length ≤ LOGSIZE

/-- A header with `n = 0`. -/
def LogHeader.empty : LogHeader := ⟨[], Nat.zero_le _⟩

/-- The field `n` of a header block. -/
def headerCount (b : Block) : Int := (b 0).toInt

/-- The header block after `hb->n` and `hb->sector[0..n)` are stored over `b`. -/
def LogHeader.store (lh : LogHeader) (b : Block) : Block := fun i =>
  if i.val = 0 then BitVec.ofNat 32 lh.sector.length else lh.sector.getD (i.val - 1) (b i)

/-- The header in block `b`; `none` if its entries do not fit `log.lh.sector`, which the source
would then write past. -/
def LogHeader.load (b : Block) : Option LogHeader :=
  if fits : (headerCount b).toNat ≤ LOGSIZE then
    some ⟨(List.range (headerCount b).toNat).map fun i => b (Fin.ofNat 128 (i + 1)), by simpa using fits⟩
  else none

/-! ## The machine -/

/-- The disk, the dirty buffers, `log.lh`, and the disk writes since power on. -/
structure Machine where
  disk : Disk
  dirty : Sector → Option Block
  lh : LogHeader
  written : List (Sector × Block)

/-- The machine after power on: nothing is cached, `log` is zero. -/
def powerOn (d : Disk) : Machine := ⟨d, fun _ => none, .empty, []⟩

namespace Machine

/-- The contents of the buffer that `bread` returns. -/
def bread (m : Machine) (s : Sector) : Block := (m.dirty s).getD (m.disk s)

/-- `bwrite` of a buffer that holds `b`. -/
def bwrite (m : Machine) (s : Sector) (b : Block) : Machine :=
  { m with
    disk := Function.update m.disk s b
    dirty := Function.update m.dirty s none
    written := m.written ++ [(s, b)] }

/-- Copy modified blocks from cache to log. -/
def writeLog (g : Geometry) (m : Machine) : Machine :=
  m.lh.sector.zipIdx.foldl (fun m (s, tail) => m.bwrite (g.block tail) (m.bread s)) m

/-- Copy committed blocks from the log to their home location. -/
def installTrans (g : Geometry) (m : Machine) : Machine :=
  m.lh.sector.zipIdx.foldl (fun m (s, tail) => m.bwrite s (m.bread (g.block tail))) m

/-- Write the in-memory log header to disk. -/
def writeHead (g : Geometry) (m : Machine) : Machine :=
  m.bwrite g.start (m.lh.store (m.bread g.start))

/-- Read the log header from disk into the in-memory log header. -/
def readHead (g : Geometry) (m : Machine) : Option Machine :=
  (LogHeader.load (m.bread g.start)).map fun lh => { m with lh }

/-- `recover_from_log`, run by `initlog` at every boot. -/
def recoverFromLog (g : Geometry) (m : Machine) : Option Machine :=
  (m.readHead g).map fun m => writeHead g { installTrans g m with lh := .empty }

/-- `commit`. -/
def commit (g : Geometry) (m : Machine) : Machine :=
  if 0 < m.lh.sector.length then
    let m := installTrans g (writeHead g (writeLog g m))
    writeHead g { m with lh := .empty }
  else m

end Machine

end Xv6.Log
