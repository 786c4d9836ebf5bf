import Xv6.Sched.Lottery
import Xv6.Lib.Run

/-!
# The scheduling kernel as a step function

Any number of CPUs run processes and the scheduler over one process table.
`ptable.lock` is explicit: a step that takes it runs up to the point where the
lock is released, or up to the `swtch` that hands it to another context of the
same CPU. Between the two halves of a context switch the lock is therefore held
in the state, and no other CPU can take a locked step. The stores that the code
makes without the lock (a failed `fork`, accounting) are steps of their own
that ask for no lock.
-/

namespace Xv6.Sched

/-- Where a process that has called `sched`, or has never run, will continue. -/
inductive Resume where
  | forkret
  | yield
  | sleep
  | wait
  | waitStat
  deriving DecidableEq, Repr

/-- What a CPU is executing. `scan`, `switchTo` and `switchFrom` hold `ptable.lock`. -/
inductive Ctx where
  /-- `scheduler()`, about to acquire the lock. -/
  | sched
  /-- The table scan of the `DEFAULT` scheduler, at this index. -/
  | scan (i : Nat)
  /-- A process that the scheduler has just switched to. -/
  | switchTo (p : Slot)
  /-- A process, in user mode or in the kernel. -/
  | run (p : Slot)
  /-- `scheduler()`, just after the switch back from a process. -/
  | switchFrom (p : Slot)
  deriving DecidableEq, Repr

/-- The current process of a CPU (`cpu->proc`). -/
def Ctx.proc : Ctx → Option Slot
  | .switchTo p | .run p | .switchFrom p => some p
  | .sched | .scan _ => none

/-- The kernel state that the steps below share. -/
structure Kernel (ncpu : Nat) where
  tab : Table
  totalTickets : Int
  rng : Xorshift
  nextpid : Int
  ticks : Int
  initproc : Slot
  /-- The CPU that holds `ptable.lock`. -/
  lock : Option (Fin ncpu)
  cpu : Fin ncpu → Ctx
  resume : Slot → Resume
  /-- The child that a process inside `fork` has allocated and not yet started. -/
  np : Slot → Option Slot

/-- The steps: what a CPU does next. -/
inductive Event (ncpu : Nat) where
  | schedule (c : Fin ncpu)
  | scan (c : Fin ncpu)
  | resume (c : Fin ncpu)
  | back (c : Fin ncpu)
  | yield (c : Fin ncpu)
  | sleep (c : Fin ncpu) (chan : Chan)
  | wakeup (c : Fin ncpu) (chan : Chan)
  | kill (c : Fin ncpu) (pid : Int)
  | sigsend (c : Fin ncpu) (pid signum : Int)
  | exit (c : Fin ncpu)
  | wait (c : Fin ncpu)
  | waitStat (c : Fin ncpu)
  | allocproc (c : Fin ncpu)
  | forkFail (c : Fin ncpu)
  | forkDone (c : Fin ncpu)
  | tick (c : Fin ncpu)
  | advanceprocstats (c : Fin ncpu)
  | priority (c : Fin ncpu) (n : Int)
  deriving DecidableEq, Repr

variable {ncpu : Nat}

/-- CPU `c` continues as `x`. -/
def Kernel.setCpu (k : Kernel ncpu) (c : Fin ncpu) (x : Ctx) : Kernel ncpu :=
  { k with cpu := Function.update k.cpu c x }

/-- `release(&ptable.lock)`, with CPU `c` continuing as `x`. -/
def Kernel.release (k : Kernel ncpu) (c : Fin ncpu) (x : Ctx) : Kernel ncpu :=
  { k.setCpu c x with lock := none }

/-- `sched()` in process `p` on CPU `c`: the scheduler goes on with the lock held. -/
def Kernel.enterSched (k : Kernel ncpu) (c : Fin ncpu) (p : Slot) (r : Resume) : Kernel ncpu :=
  { k.setCpu c (.switchFrom p) with lock := some c, resume := Function.update k.resume p r }

/-- Whether CPU `c` may take the lock: it is free, and `c` is outside its own critical sections. -/
def Kernel.canLock (k : Kernel ncpu) (c : Fin ncpu) : Prop :=
  k.lock = none ∧ (k.cpu c = .sched ∨ ∃ p, k.cpu c = .run p)

instance (k : Kernel ncpu) (c : Fin ncpu) : Decidable (k.canLock c) :=
  match h : k.cpu c with
  | .sched => decidable_of_iff (k.lock = none) (by simp [Kernel.canLock, h])
  | .run p => decidable_of_iff (k.lock = none) (by simp [Kernel.canLock, h])
  | .scan _ | .switchTo _ | .switchFrom _ => .isFalse (by simp [Kernel.canLock, h])

/-- The process that runs on CPU `c` outside every critical section and outside `fork`. -/
def Kernel.current (k : Kernel ncpu) (c : Fin ncpu) : Option Slot :=
  match k.cpu c with
  | .run p => if k.np p = none then some p else none
  | _ => none

/-- The body of the loop of `wait` and `wait_stat` in process `me`, the lock held. -/
def waitBody (k : Kernel ncpu) (c : Fin ncpu) (me : Slot) (clear : Proc → Proc) (r : Resume) : Kernel ncpu :=
  match waitScan k.tab me slots false with
  | (some p, _) => { k.release c (.run me) with tab := k.tab.modify p clear }
  | (none, havekids) =>
    if ¬ havekids ∨ (k.tab.proc me).killed then k.release c (.run me)
    else
      let tab := k.tab.modify me fun q => { q with chan := .proc me, state := .sleeping }
      { k with tab := tab }.enterSched c me r

/-- One round of the scheduler of a queue kernel, up to the switch or the release. -/
def schedule (b : Build) (k : Kernel ncpu) (c : Fin ncpu) : Option (Kernel ncpu) := do
  let (tab, total) ← deliverTicketsToFIFOProcs b k.tab
  let (p, rng) ← pickProcess tab total k.rng
  let k := { k with tab := tab, totalTickets := total, rng := rng }
  match p with
  | none => return k
  | some p =>
    let tab := (removeProcFromRRqueue tab p).modify p fun q => { q with state := .running }
    return { k.setCpu c (.switchTo p) with tab := tab, lock := some c }

/-- One step of the `DEFAULT` scheduler's scan. -/
def scan (k : Kernel ncpu) (c : Fin ncpu) (i : Nat) : Kernel ncpu :=
  if h : i < NPROC then
    let p : Slot := ⟨i, h⟩
    if (k.tab.proc p).state ≠ .runnable then k.setCpu c (.scan (i + 1))
    else
      let tab := k.tab.modify p fun q => { q with state := .running }
      { k.setCpu c (.switchTo p) with tab := tab }
  else k.release c .sched

/-- What process `p` does when it has been switched to, still holding the lock. -/
def resume (k : Kernel ncpu) (c : Fin ncpu) (p : Slot) : Kernel ncpu :=
  let awake := { k with tab := k.tab.modify p fun q => { q with chan := .null } }
  match k.resume p with
  | .forkret | .yield => k.release c (.run p)
  | .sleep => awake.release c (.run p)
  | .wait => waitBody awake c p reap .wait
  | .waitStat => waitBody awake c p reapStat .waitStat

/-- The locked part of `allocproc`. -/
def allocproc (k : Kernel ncpu) (parent : Slot) : Kernel ncpu :=
  match slots.find? fun p => (k.tab.proc p).state = .unused with
  | none => k
  | some p =>
    let tab := k.tab.modify p fun q => { q with state := .embryo, pid := k.nextpid, ctime := k.ticks }
    { k with tab := tab, nextpid := k.nextpid + 1, np := Function.update k.np parent (some p) }

/-- `fork` from the copy of the parent on: the child's fields, then `RUNNABLE` under the lock. No tick comes between the
read of `ticks` and the lock. -/
def forkDone (b : Build) (k : Kernel ncpu) (parent child : Slot) : Kernel ncpu :=
  let tab := k.tab.modify child fun q =>
    { q with parent := some parent, runQuanta := 0, rutime := 0, ctime := k.ticks, ttime := 0, stime := 0,
             retime := 0, priority := (k.tab.proc parent).priority }
  { k with tab := makeRunnable b tab child, np := Function.update k.np parent none,
           resume := Function.update k.resume child .forkret }

/-- `exit` in process `me`, up to `sched()`. -/
def exit (b : Build) (k : Kernel ncpu) (c : Fin ncpu) (me : Slot) : Kernel ncpu :=
  let tab := wakeup1 b (.ofProc (k.tab.proc me).parent) k.tab
  let tab := reparent b me k.initproc tab
  let tab := tab.modify me fun q => { q with state := .zombie, ttime := k.ticks }
  -- a zombie is never switched to again
  { k with tab := tab }.enterSched c me .yield

/-- The step function of the kernel built with policy `b`. -/
def step (b : Build) (k : Kernel ncpu) : Event ncpu → Option (Kernel ncpu)
  | .schedule c =>
    if k.lock = none ∧ k.cpu c = .sched then
      if b.queued then schedule b k c else some { k.setCpu c (.scan 0) with lock := some c }
    else none
  | .scan c => match k.cpu c with
    | .scan i => some (scan k c i)
    | _ => none
  | .resume c => match k.cpu c with
    | .switchTo p => some (resume k c p)
    | _ => none
  | .back c => match k.cpu c with
    | .switchFrom p => if b.queued then some (k.release c .sched) else some (k.setCpu c (.scan (p + 1)))
    | _ => none
  | .yield c => match k.cpu c with
    | .run p => if k.lock = none then some ({ k with tab := makeRunnable b k.tab p }.enterSched c p .yield) else none
    | _ => none
  | .sleep c chan => do
    let p ← k.current c
    guard (k.lock = none)
    let tab := k.tab.modify p fun q => { q with chan := chan, state := .sleeping }
    return { k with tab := tab }.enterSched c p .sleep
  | .wakeup c chan => if k.canLock c then some { k with tab := wakeup1 b chan k.tab } else none
  | .kill c pid => do
    let _ ← k.current c
    guard (k.lock = none)
    return { k with tab := (kill b k.tab pid).1 }
  | .sigsend c pid signum => do
    let _ ← k.current c
    guard (k.lock = none)
    return { k with tab := (sigsend k.tab pid signum).1 }
  | .exit c => do
    let p ← k.current c
    guard (k.lock = none ∧ p ≠ k.initproc)
    return exit b k c p
  | .wait c => do
    let p ← k.current c
    guard (k.lock = none)
    return waitBody k c p reap .wait
  | .waitStat c => do
    let p ← k.current c
    guard (k.lock = none)
    return waitBody k c p reapStat .waitStat
  | .allocproc c => do
    let p ← k.current c
    guard (k.lock = none)
    return allocproc k p
  | .forkFail c => match k.cpu c with
    | .run p => (k.np p).map fun child =>
      { k with tab := k.tab.modify child fun q => { q with state := .unused }, np := Function.update k.np p none }
    | _ => none
  | .forkDone c => match k.cpu c with
    | .run p => if k.lock = none then (k.np p).map (forkDone b k p) else none
    | _ => none
  | .tick c =>
    -- only the first CPU keeps the time
    if k.canLock c ∧ c.val = 0 then
      some { k with tab := advanceprocstats (wakeup1 b .ticks k.tab), ticks := k.ticks + 1 }
    else none
  | .advanceprocstats c => (k.current c).map fun _ => { k with tab := advanceprocstats k.tab }
  | .priority c n => (k.current c).map fun p =>
    { k with tab := k.tab.modify p fun q => { q with priority := n } }

/-- The table of zeroes that the kernel starts with. -/
def Table.zero : Table := ⟨fun _ => {}, none, none⟩

/-- The state after `userinit`: the first process is `RUNNABLE`, every CPU is in its scheduler. -/
def boot (b : Build) (ncpu : Nat) : Kernel ncpu where
  tab := makeRunnable b (Table.zero.modify 0 fun q => { q with pid := 1 }) 0
  totalTickets := 0
  rng := .initial
  nextpid := 2
  ticks := 0
  initproc := 0
  lock := none
  cpu := fun _ => .sched
  resume := fun _ => .forkret
  np := fun _ => none

end Xv6.Sched
