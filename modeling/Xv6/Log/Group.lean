import Xv6.Lib.Run
import Xv6.Log.Disk

/-!
# Group commit

`log.c` above its lock: any number of processes run file system operations, each
between a `begin_op` and an `end_op`, and the last one out commits for all. An
event is one atomic section: a test of the loop of `begin_op`, the unlocked tests
of `log_write`, its locked part, the locked part of `end_op`, `commit`, and the
section that clears `committing`.
-/

namespace Xv6.Log

open Xv6.Lib

/-- How the kernel can stop in the log. -/
inductive Stop where
  /-- `panic("log.committing")` -/
  | logCommitting
  /-- `panic("too big a transaction")` -/
  | tooBigTransaction
  /-- `panic("log_write outside of trans")` -/
  | outsideOfTrans
  /-- a store past the end of `log.lh.sector` -/
  | overrun
  deriving DecidableEq, Repr

/-- Where a process is in its operation. -/
inductive Phase where
  /-- not in an operation, or about to make the test of `begin_op` -/
  | outside
  /-- asleep on `&log` in `begin_op` -/
  | asleep
  /-- between `begin_op` and `end_op` -/
  | active
  /-- in `log_write`, past its tests and before it takes the lock -/
  | writing (s : Sector)
  /-- in `end_op` with `do_commit` set, before `commit` -/
  | closing
  /-- in `end_op`, `commit` has returned -/
  | committed
  deriving DecidableEq, Repr

/-- The process is between its `begin_op` and the locked part of its `end_op`. -/
def Phase.inOp : Phase → Bool
  | .active | .writing _ => true
  | _ => false

/-- The process is the one that commits. -/
def Phase.commits : Phase → Bool
  | .closing | .committed => true
  | _ => false

/-- `struct log`, the disk and cache below it, and the processes. -/
structure State (P : Type) where
  mem : Machine
  outstanding : Int
  committing : Bool
  phase : P → Phase
  stopped : Option Stop

/-- An atomic section of process `p`. -/
inductive Event (P : Type) where
  | beginOp (p : P)
  | logTest (p : P) (s : Sector)
  | logAppend (p : P) (s : Sector) (data : Block)
  | endOp (p : P)
  | commit (p : P)
  | finish (p : P)

section
variable {P : Type} [DecidableEq P]

namespace State

def setPhase (s : State P) (p : P) (f : Phase) : State P :=
  { s with phase := Function.update s.phase p f }

def stop (s : State P) (why : Stop) : State P := { s with stopped := some why }

/-- `wakeup(&log)`: the sleepers test again. -/
def wakeup (s : State P) : State P :=
  { s with phase := fun p => if s.phase p = .asleep then .outside else s.phase p }

/-- One round of the loop of `begin_op`. -/
def beginOp (s : State P) (p : P) : State P :=
  if s.committing then s.setPhase p .asleep
  else if (s.mem.lh.sector.length : Int) + (s.outstanding + 1) * MAXOPBLOCKS > LOGSIZE then
    -- this op might exhaust log space; wait for commit
    s.setPhase p .asleep
  else { s.setPhase p .active with outstanding := s.outstanding + 1 }

/-- The tests at the head of `log_write`, made without the lock. -/
def logTest (g : Geometry) (s : State P) (p : P) (x : Sector) : State P :=
  if s.mem.lh.sector.length ≥ LOGSIZE ∨ (s.mem.lh.sector.length : Int) ≥ (g.size : Int) - 1 then
    s.stop .tooBigTransaction
  else if s.outstanding < 1 then s.stop .outsideOfTrans
  else s.setPhase p (.writing x)

end State

theorem LogHeader.bounded_append {lh : LogHeader} {x : Sector} (room : lh.sector.length < LOGSIZE) :
    (lh.sector ++ [x]).length ≤ LOGSIZE := by
  rw [List.length_append]
  exact room

/-- Log absorption: an entry that exists is stored over itself, a new one goes at the end. -/
def LogHeader.absorb (lh : LogHeader) (x : Sector) : Option LogHeader :=
  if x ∈ lh.sector then some lh
  else if room : lh.sector.length < LOGSIZE then some ⟨lh.sector ++ [x], bounded_append room⟩
  else none

namespace State

/-- The locked part of `log_write`, for a buffer that holds `data`. -/
def logAppend (s : State P) (p : P) (x : Sector) (data : Block) : State P :=
  match s.mem.lh.absorb x with
  | none => s.stop .overrun
  | some lh => { s.setPhase p .active with
      mem := { s.mem with lh, dirty := Function.update s.mem.dirty x (some data) } }

/-- The locked part of `end_op`. -/
def endOp (s : State P) (p : P) : State P :=
  let s := { s with outstanding := s.outstanding - 1 }
  if s.committing then s.stop .logCommitting
  else if s.outstanding = 0 then { s.setPhase p .closing with committing := true }
  else (s.setPhase p .outside).wakeup

/-- `commit`, called by `end_op` without the lock. -/
def commit (g : Geometry) (s : State P) (p : P) : State P :=
  { s.setPhase p .committed with mem := s.mem.commit g }

/-- The last section of `end_op`. -/
def finish (s : State P) (p : P) : State P :=
  { s.setPhase p .outside with committing := false }.wakeup

end State

/-- The phase in which process `p` can take an event. -/
def Event.enabled (s : State P) : Event P → Bool
  | .beginOp p => s.phase p = .outside
  | .logTest p _ => s.phase p = .active
  | .logAppend p x _ => s.phase p = .writing x
  | .endOp p => s.phase p = .active
  | .commit p => s.phase p = .closing
  | .finish p => s.phase p = .committed

/-- The state after an event. -/
def Event.apply (g : Geometry) (s : State P) : Event P → State P
  | .beginOp p => s.beginOp p
  | .logTest p x => s.logTest g p x
  | .logAppend p x data => s.logAppend p x data
  | .endOp p => s.endOp p
  | .commit p => s.commit g p
  | .finish p => s.finish p

/-- One step of the system; a stopped kernel takes none. -/
def step (g : Geometry) (s : State P) (e : Event P) : Option (State P) :=
  if s.stopped = none ∧ e.enabled s then some (e.apply g s) else none

/-- The state after `initlog`: the log is empty and no operation runs. -/
def ready (P : Type) (d : Disk) : State P := ⟨powerOn d, 0, false, fun _ => .outside, none⟩

end

end Xv6.Log
