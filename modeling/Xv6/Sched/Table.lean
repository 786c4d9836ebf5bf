import Xv6.Param

/-!
# The process table and the ready queue

`struct proc` as far as `proc.c` reads and writes it, the table `ptable.proc`,
and the queue `rrqueue` that the `FRR`, `FCFS` and `PRS` kernels keep in the
`rrnext` and `rrprev` fields of the processes. Pointers to a process are slot
numbers, `none` is the null pointer. Address space, files and kernel stack
pages of a process are not part of this model.
-/

namespace Xv6.Sched

/-- `enum procstate`. -/
inductive ProcState where
  | unused | embryo | sleeping | runnable | running | zombie
  deriving DecidableEq, Repr

/-- A pointer into `ptable.proc`. -/
abbrev Slot := Fin NPROC

/-- What a process sleeps on: a process, the tick counter, or another kernel address. -/
inductive Chan where
  | null
  | proc (p : Slot)
  | ticks
  | addr (a : Nat)
  deriving DecidableEq, Repr

/-- A process pointer as a channel. -/
def Chan.ofProc : Option Slot → Chan
  | some p => .proc p
  | none => .null

/-- `struct proc`: scheduling, family, signal bits and accounting. -/
structure Proc where
  state : ProcState := .unused
  pid : Int := 0
  parent : Option Slot := none
  chan : Chan := .null
  killed : Bool := false
  pending : BitVec 32 := 0
  ctime : Int := 0
  ttime : Int := 0
  stime : Int := 0
  retime : Int := 0
  rutime : Int := 0
  runQuanta : Int := 0
  priority : Int := 0
  tickets : Int := 0
  firstTicketNum : Int := 0
  rrnext : Option Slot := none
  rrprev : Option Slot := none
  deriving DecidableEq, Repr

/-- The scheduling policy the kernel is built with (`SCHEDFLAG`). -/
inductive Build where
  | default | frr | fcfs | prs
  deriving DecidableEq, Repr

/-- `#if defined(FRR) || defined(FCFS) || defined(PRS)`. -/
def Build.queued : Build → Bool
  | .default => false
  | _ => true

/-- `ptable.proc` with the ends of `rrqueue`. -/
structure Table where
  proc : Slot → Proc
  first : Option Slot
  last : Option Slot

/-- All slots, in the order `for(p = ptable.proc; p < &ptable.proc[NPROC]; p++)` visits them. -/
@[irreducible] def slots : List Slot := List.finRange NPROC

/-- Write to the fields of process `p`. -/
def Table.modify (t : Table) (p : Slot) (f : Proc → Proc) : Table :=
  { t with proc := Function.update t.proc p (f (t.proc p)) }

/-- `if (q) q->rrnext = v`. -/
def Table.setRrnext (t : Table) (q v : Option Slot) : Table :=
  match q with
  | some q => t.modify q fun r => { r with rrnext := v }
  | none => t

/-- `if (q) q->rrprev = v`. -/
def Table.setRrprev (t : Table) (q v : Option Slot) : Table :=
  match q with
  | some q => t.modify q fun r => { r with rrprev := v }
  | none => t

/-- Push process `p` to the queue. -/
def pushProcToRRqueue (t : Table) (p : Slot) : Table :=
  let t := if t.first = none then { t with first := some p } else t
  let t := t.setRrnext t.last (some p)
  let t := if t.last = none then t else t.setRrprev (some p) t.last
  { t with last := some p }

/-- Remove process `p` from the queue. -/
def removeProcFromRRqueue (t : Table) (p : Slot) : Table :=
  let t := t.setRrnext (t.proc p).rrprev (t.proc p).rrnext
  let t := t.setRrprev (t.proc p).rrnext (t.proc p).rrprev
  let t := if t.first = some p then { t with first := (t.proc p).rrnext } else t
  let t := if t.last = some p then { t with last := (t.proc p).rrprev } else t
  (t.setRrnext (some p) none).setRrprev (some p) none

/-- `p->state = RUNNABLE`, and the push that the queue kernels compile in after it. -/
def makeRunnable (b : Build) (t : Table) (p : Slot) : Table :=
  let t := t.modify p fun r => { r with state := .runnable }
  if b.queued then pushProcToRRqueue t p else t

/-- Wake up all processes sleeping on `chan`. -/
def wakeup1 (b : Build) (chan : Chan) (t : Table) : Table :=
  slots.foldl (fun t p =>
    if (t.proc p).state = .sleeping ∧ (t.proc p).chan = chan then makeRunnable b t p else t) t

/-- The slot that `kill` and `sigsend` stop at: the first one with this pid. -/
def findPid (t : Table) (pid : Int) : Option Slot := slots.find? fun p => (t.proc p).pid = pid

/-- `kill`: the flag, and a wakeup for a sleeper. -/
def kill (b : Build) (t : Table) (pid : Int) : Table × Int :=
  match findPid t pid with
  | some p =>
    let t := t.modify p fun r => { r with killed := true }
    (if (t.proc p).state = .sleeping then makeRunnable b t p else t, 0)
  | none => (t, -1)

/-- `sigsend`: the pending bit, and `RUNNABLE` for a sleeper. Unlike `kill` it has no push. -/
def sigsend (t : Table) (pid signum : Int) : Table × Int :=
  if signum ≥ 31 ∨ signum < 0 then (t, -1)
  else match findPid t pid with
    | some p =>
      let t := t.modify p fun r => { r with pending := r.pending ||| (1#32 <<< signum.toNat) }
      (if (t.proc p).state = .sleeping then t.modify p fun r => { r with state := .runnable } else t, 0)
    | none => (t, -1)

/-- `exit`'s second loop: abandoned children go to `init`, which is woken for each zombie. -/
def reparent (b : Build) (me init : Slot) (t : Table) : Table :=
  slots.foldl (fun t p =>
    if (t.proc p).parent = some me then
      let t := t.modify p fun r => { r with parent := some init }
      if (t.proc p).state = .zombie then wakeup1 b (.proc init) t else t
    else t) t

/-- The scan of `wait` and `wait_stat`: the first zombie child, and whether there was any child. -/
def waitScan (t : Table) (me : Slot) : List Slot → Bool → Option Slot × Bool
  | [], havekids => (none, havekids)
  | p :: ps, havekids =>
    if (t.proc p).parent ≠ some me then waitScan t me ps havekids
    else if (t.proc p).state = .zombie then (some p, true)
    else waitScan t me ps true

/-- What `wait` leaves of a reaped child. -/
def reap (r : Proc) : Proc :=
  { r with state := .unused, pid := 0, parent := none, killed := false, runQuanta := 0, rutime := 0 }

/-- What `wait_stat` leaves of a reaped child: it does not reset the two counters. -/
def reapStat (r : Proc) : Proc :=
  { r with state := .unused, pid := 0, parent := none, killed := false }

/-- One tick of accounting for every process. -/
def advanceprocstats (t : Table) : Table :=
  { t with proc := fun p =>
      let r := t.proc p
      match r.state with
      | .running => { r with rutime := r.rutime + 1 }
      | .runnable => { r with retime := r.retime + 1 }
      | .sleeping => { r with stime := r.stime + 1 }
      | _ => r }

end Xv6.Sched
