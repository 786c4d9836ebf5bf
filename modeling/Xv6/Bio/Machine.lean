import Xv6.Bio.Cache
import Xv6.Lib.Run

/-!
# Processes in the buffer cache

Any number of processes call `bread`, `bwrite` and `brelse`, store to the data of
the buffers they hold and pin them as `log_write` does. `bcache.lock` is explicit:
a process inside `bget` holds it from loop iteration to loop iteration, while the
owners of busy buffers set flags and move data without any lock. A sleeper in
`bget` is woken by the `brelse` of its buffer, or at any time by a `kill`.
-/

namespace Xv6.Bio

/-- Where a process is inside `bio.c`. -/
inductive Call where
  | idle
  /-- in `bget`, about to acquire `bcache.lock` -/
  | bget (dev sector : BitVec 32)
  /-- in the first loop of `bget`, at this pointer -/
  | scan (dev sector : BitVec 32) (b : Ptr)
  /-- in the second loop of `bget`, at this pointer -/
  | recycle (dev sector : BitVec 32) (b : Ptr)
  /-- in `sleep(b, &bcache.lock)` -/
  | asleep (dev sector : BitVec 32) (b : BufPtr)
  /-- in `bread`, with the buffer that `bget` returned -/
  | bread (dev sector : BitVec 32) (b : BufPtr)
  /-- in `bwrite`, before `iderw` -/
  | bwrite (b : BufPtr)
  /-- in `brelse`, about to acquire `bcache.lock` -/
  | brelse (b : BufPtr)
  | panic (why : Panic)
  deriving DecidableEq, Repr

/-- The buffer cache, the disk and the processes. -/
structure State (P D : Type) where
  cache : Cache D
  disk : BitVec 32 → D
  /-- who holds `bcache.lock` -/
  lock : Option P
  call : P → Call
  /-- the buffers that `bget` returned to the process and that it has not released -/
  held : P → List BufPtr

inductive Event (P D : Type) where
  /-- `bread` is called -/
  | bread (p : P) (dev sector : BitVec 32)
  /-- the process goes on inside `bio.c` -/
  | advance (p : P)
  /-- a `kill` wakes the process -/
  | kill (p : P)
  /-- a store to `b->data` -/
  | store (p : P) (b : BufPtr) (data : D)
  /-- `b->flags |= B_DIRTY` in `log_write` -/
  | pin (p : P) (b : BufPtr)
  | bwrite (p : P) (b : BufPtr)
  | brelse (p : P) (b : BufPtr)

/-- Whose step it is. -/
def Event.proc {P D : Type} : Event P D → P
  | .bread p _ _ | .advance p | .kill p | .store p _ _ | .pin p _ | .bwrite p _ | .brelse p _ => p

section
variable {P D : Type} [DecidableEq P]

namespace State

def setCall (s : State P D) (p : P) (c : Call) : State P D := { s with call := Function.update s.call p c }

def modify (s : State P D) (b : BufPtr) (f : Buf D → Buf D) : State P D := { s with cache := s.cache.modify b f }

/-- `bget` returns `b` to process `p`, `bcache.lock` released. -/
def obtains (s : State P D) (p : P) (dev sector : BitVec 32) (b : BufPtr) : State P D :=
  { s.setCall p (.bread dev sector b) with lock := none, held := Function.update s.held p (b :: s.held p) }

/-- One iteration of the first loop of `bget`. -/
def scan (s : State P D) (p : P) (dev sector : BitVec 32) : Ptr → State P D
  | none => s.setCall p (.recycle dev sector (s.cache.prev none))
  | some b =>
    if (s.cache.buf b).dev = dev ∧ (s.cache.buf b).sector = sector then
      if ¬ (s.cache.buf b).flags.busy then
        (s.modify b fun r => { r with flags := { r.flags with busy := true } }).obtains p dev sector b
      else { s.setCall p (.asleep dev sector b) with lock := none }
    else s.setCall p (.scan dev sector (s.cache.next b))

/-- One iteration of the second loop of `bget`. -/
def recycle (s : State P D) (p : P) (dev sector : BitVec 32) : Ptr → State P D
  | none => s.setCall p (.panic .noBuffers)
  | some b =>
    if ¬ (s.cache.buf b).flags.busy ∧ ¬ (s.cache.buf b).flags.dirty then
      (s.modify b fun r => { r with dev := dev, sector := sector, flags := { busy := true } }).obtains p dev sector b
    else s.setCall p (.recycle dev sector (s.cache.prev b))

/-- `iderw(b)` as the last thing a process does in `bio.c`. -/
def iderw (disksize : Nat) (s : State P D) (p : P) (b : BufPtr) : State P D :=
  match Bio.iderw disksize (s.cache.buf b) s.disk with
  | .ok (r, disk) => { (s.modify b fun _ => r).setCall p .idle with disk := disk }
  | .error why => s.setCall p (.panic why)

/-- The sleepers on `b` go on. -/
def wakeup (b : BufPtr) : Call → Call
  | .asleep dev sector b' => if b' = b then .bget dev sector else .asleep dev sector b'
  | c => c

/-- `brelse` from the acquire of `bcache.lock` to its release. -/
def brelse (s : State P D) (p : P) (b : BufPtr) : State P D :=
  let cache := ((s.cache.unlink b).pushFront b).modify b fun r => { r with flags := { r.flags with busy := false } }
  { s with
    cache := cache
    call := Function.update (fun q => wakeup b (s.call q)) p .idle
    held := Function.update s.held p ((s.held p).erase b) }

end State

/-- The step function, for a disk of `disksize` sectors. -/
def step (disksize : Nat) (s : State P D) : Event P D → Option (State P D)
  | .bread p dev sector => if s.call p = .idle then some (s.setCall p (.bget dev sector)) else none
  | .advance p => match s.call p with
    | .bget dev sector =>
      if s.lock = none then some { s.setCall p (.scan dev sector (s.cache.next none)) with lock := some p } else none
    | .scan dev sector b => some (s.scan p dev sector b)
    | .recycle dev sector b => some (s.recycle p dev sector b)
    | .bread _ _ b => if ¬ (s.cache.buf b).flags.valid then some (s.iderw disksize p b) else some (s.setCall p .idle)
    | .bwrite b => some (s.iderw disksize p b)
    | .brelse b => if s.lock = none then some (s.brelse p b) else none
    | .idle | .asleep _ _ _ | .panic _ => none
  | .kill p => match s.call p with
    | .asleep dev sector _ => some (s.setCall p (.bget dev sector))
    | _ => none
  | .store p b data =>
    if s.call p = .idle ∧ b ∈ s.held p then some (s.modify b fun r => { r with data := data }) else none
  | .pin p b =>
    if s.call p = .idle ∧ b ∈ s.held p then
      some (s.modify b fun r => { r with flags := { r.flags with dirty := true } })
    else none
  | .bwrite p b =>
    if s.call p = .idle ∧ b ∈ s.held p then
      if ¬ (s.cache.buf b).flags.busy then some (s.setCall p (.panic .bwrite))
      else some ((s.modify b fun r => { r with flags := { r.flags with dirty := true } }).setCall p (.bwrite b))
    else none
  | .brelse p b =>
    if s.call p = .idle ∧ b ∈ s.held p then
      if ¬ (s.cache.buf b).flags.busy then some (s.setCall p (.panic .brelse)) else some (s.setCall p (.brelse b))
    else none

/-- After `binit`, nobody has called anything. -/
def init (zero : D) (disk : BitVec 32 → D) : State P D := ⟨binit zero, disk, none, fun _ => .idle, fun _ => []⟩

end

end Xv6.Bio
