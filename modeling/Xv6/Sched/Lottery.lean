import Xv6.Sched.Table

/-!
# The lottery

Ticket delivery over the queue and the draw, for the `FRR`, `FCFS` and `PRS`
kernels. The loops follow `rrprev` from `rrqueue.last` and `rrnext` from
`rrqueue.first`; they are cut off after `NPROC + 1` steps, and `none` stands for
a loop that is cut off or follows a null pointer.
-/

namespace Xv6.Sched

/-- The state of the generator. -/
structure Xorshift where
  x : BitVec 32
  y : BitVec 32
  z : BitVec 32
  w : BitVec 32
  deriving DecidableEq, Repr

/-- `x`, `y`, `z` and `w` as `proc.c` initialises them. -/
def Xorshift.initial : Xorshift := ⟨1, 2, 3, 4⟩

/-- One number of the generator; `>>` on an `int` is an arithmetic shift. -/
def xorshift128 (g : Xorshift) : BitVec 32 × Xorshift :=
  let t := g.x ^^^ (g.x <<< 11)
  let w := g.w ^^^ g.w.sshiftRight 19 ^^^ t ^^^ t.sshiftRight 8
  (w, ⟨g.y, g.z, g.w, w⟩)

/-- More steps than a queue without repetition can take. -/
def queueFuel : Nat := NPROC + 1

/-- How many queued processes there are of each priority class. -/
structure Classes where
  priority1Procs : Int
  priority2Procs : Int
  priority3Procs : Int
  deriving DecidableEq, Repr

section
/-! `r` is applied to the value of every sum and product: what an `int` can hold of it. -/

variable (r : Int → Int)

/-- The loop of the `FRR` and `FCFS` kernels, from the tail up to the head. -/
def deliverLoop : Nat → Table → Int → Option Slot → Option (Table × Int × Option Slot)
  | 0, _, _, _ => none
  | n + 1, t, total, p =>
    if p = t.first then some (t, total, p)
    else match p with
      | none => none
      | some q =>
        if (t.proc q).state ≠ .runnable then
          deliverLoop n (removeProcFromRRqueue t q) total (t.proc q).rrprev
        else
          let t := t.modify q fun d => { d with firstTicketNum := r (total + 1), tickets := EXE_TICKETS }
          deliverLoop n t (r (total + EXE_TICKETS)) (t.proc q).rrprev

/-- One more process of this priority. -/
def Classes.count (n : Classes) (priority : Int) : Classes :=
  if priority ≤ 0 then { n with priority1Procs := r (n.priority1Procs + 1) }
  else if priority = 1 then { n with priority2Procs := r (n.priority2Procs + 1) }
  else if priority ≥ 2 then { n with priority3Procs := r (n.priority3Procs + 1) }
  else n

/-- The tickets of a process of this priority, given the class sizes; `old` is what it had before. -/
def Classes.tickets (n : Classes) (priority old : Int) : Int :=
  if priority ≤ 0 then EXE_TICKETS
  else if priority = 1 then r (EXE_TICKETS + r (r (EXE_TICKETS * n.priority1Procs) * FIFO_DIFFERECE))
  else if priority ≥ 2 then
    r (EXE_TICKETS + r (r (EXE_TICKETS * r (n.priority1Procs + r (n.priority2Procs * FIFO_DIFFERECE))) * FIFO_DIFFERECE))
  else old

/-- The first loop of the `PRS` kernel: drop what is not `RUNNABLE`, count the classes. -/
def countLoop : Nat → Table → Classes → Option Slot → Option (Table × Classes)
  | 0, _, _, _ => none
  | _ + 1, t, n, none => some (t, n)
  | fuel + 1, t, n, some q =>
    if (t.proc q).state ≠ .runnable then
      countLoop fuel (removeProcFromRRqueue t q) n (t.proc q).rrprev
    else countLoop fuel t (n.count r (t.proc q).priority) (t.proc q).rrprev

/-- The second loop of the `PRS` kernel: hand out the tickets. -/
def ticketLoop (n : Classes) : Nat → Table → Int → Option Slot → Option (Table × Int)
  | 0, _, _, _ => none
  | _ + 1, t, total, none => some (t, total)
  | fuel + 1, t, total, some q =>
    let t := t.modify q fun d =>
      { d with firstTicketNum := r (total + 1), tickets := n.tickets r d.priority d.tickets }
    ticketLoop n fuel t (r (total + (t.proc q).tickets)) (t.proc q).rrprev

/-- Deliver tickets to all processes in the queue; the number is the new `totalTickets`. -/
def deliverTicketsIn (b : Build) (t : Table) : Option (Table × Int) :=
  match t.last with
  | none => some (t, 0)
  | some _ =>
    match b with
    | .frr | .fcfs => do
      let (t, total, p) ← deliverLoop r queueFuel t 0 t.last
      let head ← p
      let t := t.modify head fun d =>
        { d with firstTicketNum := r (total + 1), tickets := r (EXE_TICKETS + r (FIFO_DIFFERECE * total)) }
      return (t, r (total + (t.proc head).tickets))
    | .prs => do
      let (t, n) ← countLoop r queueFuel t ⟨0, 0, 0⟩ t.last
      ticketLoop r n queueFuel t 0 t.last
    | .default => some (t, 0)

end

/-- The delivery in numbers without overflow; with those of an `int` it is the same (`deliverTicketsIn_eq`). -/
def deliverTicketsToFIFOProcs (b : Build) (t : Table) : Option (Table × Int) := deliverTicketsIn id b t

/-- The search for the process that holds a ticket. -/
def pickLoop (t : Table) (ticket : Int) : Nat → Option Slot → Option (Option Slot)
  | 0, _ => none
  | _ + 1, none => some none
  | fuel + 1, some p =>
    if ticket ≥ (t.proc p).firstTicketNum ∧ ticket ≤ (t.proc p).tickets + (t.proc p).firstTicketNum - 1 then
      some (some p)
    else pickLoop t ticket fuel (t.proc p).rrnext

/-- Roll a ticket and return the process that holds it; `%` on `int` truncates. -/
def pickProcess (t : Table) (totalTickets : Int) (g : Xorshift) : Option (Option Slot × Xorshift) :=
  if totalTickets > 0 then do
    let (roll, g) := xorshift128 g
    let p ← pickLoop t (roll.toInt.tmod totalTickets) queueFuel t.first
    return (p, g)
  else some (none, g)

end Xv6.Sched
