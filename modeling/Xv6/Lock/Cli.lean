import Xv6.Lib.Run

/-!
# Interrupts and the nesting of locks

`pushcli` and `popcli` of `spinlock.c`, which `acquire` and `release` call, and `sched` of `proc.c`. The CPU counts the
calls of `pushcli` that are not undone, and remembers in `intena` whether interrupts were enabled before the first of them;
that is a fact about a process, which `sched` keeps on the stack of the process while others run.

Of a thread, a process or the scheduler of a CPU, the model has the frames on its kernel stack that matter here. Code runs
with interrupts between any two instructions, so a `pushcli` can be interrupted between `readeflags` and `cli`. The frame of a
`pushcli` that is not undone records the flag as it was before the call.
-/

namespace Xv6.Cli

open Xv6.Lib
open Function (update update_eq_self update_of_ne update_self)

/-- The fields of `struct cpu` for `pushcli`, and the interrupt flag of the processor. -/
structure Cpu where
  ncli : Int
  intena : Bool
  flag : Bool
  deriving DecidableEq, Repr

inductive Panic where
  | popcliInterruptible | popcli | acquire | release | schedPtable | schedLocks | schedInterruptible
  deriving DecidableEq, Repr

/-- The locks, with `ptable.lock` among them. -/
inductive Lock where
  | ptable
  | other (n : Nat)
  deriving DecidableEq, Repr

/-- What there is on a kernel stack. -/
inductive Frame where
  /-- `pushcli` before its `cli`, called for itself or by `acquire`. -/
  | eflags (flag : Bool) (lk : Option Lock)
  /-- `acquire` before its `xchg` succeeds. -/
  | spin (lk : Lock)
  /-- A `pushcli` that is not undone. -/
  | pushed (flag : Bool)
  /-- The scheduler's `pushcli`, which `forkret` undoes. -/
  | entered
  /-- `sched`, switched out. -/
  | sched (intena : Bool)
  /-- A process that has not run yet. -/
  | forkret
  /-- Interrupted code. -/
  | trap (flag : Bool)
  deriving DecidableEq, Repr

/-- The rest of `pushcli`, after `eflags = readeflags()`. -/
def pushcli (eflags : Bool) (c : Cpu) : Cpu where
  ncli := c.ncli + 1
  intena := if c.ncli = 0 then eflags else c.intena
  flag := false

def popcli (c : Cpu) : Except Panic Cpu :=
  if c.flag then .error .popcliInterruptible
  else if c.ncli - 1 < 0 then .error .popcli
  else .ok { c with ncli := c.ncli - 1, flag := if c.ncli - 1 = 0 ∧ c.intena then true else c.flag }

/-- The checks of `sched`; that the state of the process is not `RUNNING` is its caller's business. -/
def schedCheck (c : Cpu) (holding : Bool) : Except Panic Unit :=
  if ¬ holding then .error .schedPtable
  else if c.ncli ≠ 1 then .error .schedLocks
  else if c.flag then .error .schedInterruptible
  else .ok ()

/-- CPUs `C` and processes `P`: what each CPU runs (`none` is its scheduler), the stacks, and which CPU holds each lock. -/
structure State (C P : Type) where
  cpu : C → Cpu
  proc : C → Option P
  stack : C ⊕ P → List Frame
  holder : Lock → Option C
  panic : Option Panic

inductive Event (C P : Type) where
  /-- `eflags = readeflags()` in `pushcli`. -/
  | readeflags (c : C) (lk : Option Lock)
  /-- The rest of `pushcli`. -/
  | cli (c : C)
  /-- `acquire` takes its lock. -/
  | xchg (c : C)
  | popcli (c : C)
  | release (c : C) (lk : Lock)
  | sched (c : C)
  /-- The scheduler switches to a process. -/
  | swtch (c : C) (p : P)
  /-- `sti()` at the beginning of the scheduler's loop. -/
  | sti (c : C)
  | interrupt (c : C)
  | iret (c : C)
  /-- A process returns to user mode, where the flag is that of its trap frame, and comes back. -/
  | user (c : C) (flag : Bool)

section
variable {C P : Type} [DecidableEq C] [DecidableEq P]

/-- The thread that a CPU runs. -/
def State.thread (s : State C P) (c : C) : C ⊕ P := (s.proc c).elim (.inl c) .inr

/-- The stack of the thread that a CPU runs. -/
def State.top (s : State C P) (c : C) : List Frame := s.stack (s.thread c)

/-- The thread of a CPU goes on. -/
def State.set (s : State C P) (c : C) (cpu : Cpu) (st : List Frame) : State C P :=
  { s with cpu := update s.cpu c cpu, stack := update s.stack (s.thread c) st }

/-- The thread of a CPU undoes a `pushcli`. -/
def State.pop (s : State C P) (c : C) (st : List Frame) : State C P :=
  match popcli (s.cpu c) with
  | .error e => { s with panic := some e }
  | .ok cpu => s.set c cpu st

/-- The thread is at a point from which it can make a call. -/
def ready : List Frame → Bool
  | .eflags _ _ :: _ | .spin _ :: _ => false
  | _ => true

/-- A `pushcli` that is not undone is the last call of the thread. -/
def undo : List Frame → Option (List Frame)
  | .pushed _ :: st | .entered :: st => some st
  | _ => none

/-- One step of a CPU; calls of `popcli` are balanced by calls of `pushcli` before. -/
def step (s : State C P) (e : Event C P) : Option (State C P) :=
  if s.panic ≠ none then none
  else match e with
    | .readeflags c lk =>
      if ready (s.top c) then some (s.set c (s.cpu c) (.eflags (s.cpu c).flag lk :: s.top c)) else none
    | .cli c => match s.top c with
      | .eflags flag lk :: st => some (s.set c (pushcli flag (s.cpu c)) ((lk.map .spin).toList ++ .pushed flag :: st))
      | _ => none
    | .xchg c => match s.top c with
      | .spin lk :: st =>
        if s.holder lk = some c then some { s with panic := some .acquire }
        else if s.holder lk = none then some { s.set c (s.cpu c) st with holder := update s.holder lk (some c) }
        else none
      | _ => none
    | .popcli c => (undo (s.top c)).map (s.pop c)
    | .release c lk => (undo (s.top c)).map fun st =>
      if s.holder lk ≠ some c then { s with panic := some .release }
      else { s.pop c st with holder := update s.holder lk none }
    | .sched c =>
      if s.proc c = none ∨ ready (s.top c) = false then none
      else match schedCheck (s.cpu c) (s.holder .ptable = some c) with
        | .error e => some { s with panic := some e }
        | .ok () => some { s.set c (s.cpu c) (.sched (s.cpu c).intena :: s.top c) with proc := update s.proc c none }
    | .swtch c p =>
      if s.proc c ≠ none ∨ s.holder .ptable ≠ some c then none
      else match s.top c, s.stack (.inr p) with
        | [.pushed _], .sched intena :: st => some { s with
            proc := update s.proc c (some p)
            cpu := update s.cpu c { s.cpu c with intena := intena }
            stack := update s.stack (.inr p) st }
        | [.pushed _], [.forkret] => some { s with
            proc := update s.proc c (some p)
            stack := update s.stack (.inr p) [.entered] }
        | _, _ => none
    | .sti c =>
      if s.proc c = none ∧ s.top c = [] then some (s.set c { s.cpu c with flag := true } []) else none
    | .interrupt c =>
      if (s.cpu c).flag then some (s.set c { s.cpu c with flag := false } (.trap true :: s.top c)) else none
    | .iret c => match s.top c with
      | .trap flag :: st => some (s.set c { s.cpu c with flag := flag } st)
      | _ => none
    | .user c flag =>
      if s.proc c ≠ none ∧ s.top c = [] then some (s.set c { s.cpu c with flag := flag } []) else none

/-- All CPUs are about to enter their schedulers. -/
def State.init : State C P where
  cpu _ := ⟨0, false, false⟩
  proc _ := none
  stack := Sum.elim (fun _ => []) fun _ => [.forkret]
  holder _ := none
  panic := none

end

/-! ## What a step can do -/

/-- A step of one thread, on its CPU. -/
inductive Local : Cpu → List Frame → Cpu → List Frame → Prop where
  | call {k : Cpu} {st : List Frame} {lk : Option Lock} : Local k st k (.eflags k.flag lk :: st)
  | cli {k : Cpu} {flag : Bool} {lk : Option Lock} {st : List Frame} :
    Local k (.eflags flag lk :: st) (pushcli flag k) ((lk.map .spin).toList ++ .pushed flag :: st)
  | lock {k : Cpu} {lk : Lock} {st : List Frame} : Local k (.spin lk :: st) k st
  | undo {k k' : Cpu} {st st' : List Frame} (last : undo st = some st') (popped : popcli k = .ok k') : Local k st k' st'
  | set {k : Cpu} {flag : Bool} {st : List Frame} (none : st = []) : Local k st { k with flag := flag } []
  | interrupt {k : Cpu} {st : List Frame} (enabled : k.flag = true) : Local k st { k with flag := false } (.trap true :: st)
  | iret {k : Cpu} {flag : Bool} {st : List Frame} : Local k (.trap flag :: st) { k with flag := flag } st

/-- A step of the system: of one thread, a switch to the scheduler and back, or a panic. -/
inductive Step {C P : Type} [DecidableEq C] [DecidableEq P] (s : State C P) : State C P → Prop where
  | thread {c : C} {k : Cpu} {st : List Frame} {h : Lock → Option C} (move : Local (s.cpu c) (s.top c) k st) :
    Step s { s.set c k st with holder := h }
  | sched {c : C} {p : P} (runs : s.proc c = some p) (once : (s.cpu c).ncli = 1) :
    Step s { s.set c (s.cpu c) (.sched (s.cpu c).intena :: s.top c) with proc := update s.proc c none }
  | resume {c : C} {p : P} {flag intena : Bool} {st : List Frame} (idle : s.proc c = none) (stack : s.top c = [.pushed flag])
      (out : s.stack (.inr p) = .sched intena :: st) :
    Step s { s with
      proc := update s.proc c (some p)
      cpu := update s.cpu c { s.cpu c with intena := intena }
      stack := update s.stack (.inr p) st }
  | begin {c : C} {p : P} {flag : Bool} (idle : s.proc c = none) (stack : s.top c = [.pushed flag])
      (out : s.stack (.inr p) = [.forkret]) :
    Step s { s with
      proc := update s.proc c (some p)
      stack := update s.stack (.inr p) [.entered] }
  | panic {x : Panic} {h : Lock → Option C} (why : x = .popcli ∨ x = .popcliInterruptible → ∃ c st, undo (s.top c) = some st ∧
      popcli (s.cpu c) = .error x) : Step s { s with panic := some x, holder := h }

section
variable {C P : Type} [DecidableEq C] [DecidableEq P] {s s' : State C P} {c : C} {st : List Frame}

theorem step_pop (last : undo (s.top c) = some st) (h : Lock → Option C) : Step s { s.pop c st with holder := h } := by
  rw [State.pop]
  split
  · rename_i x failed
    exact .panic fun _ => ⟨c, st, last, failed⟩
  · rename_i k popped
    exact .thread (.undo last popped)

theorem step_cases {e : Event C P} (taken : step s e = some s') : Step s s' := by
  unfold step at taken
  split at taken
  · cases taken
  cases e with
  | readeflags c lk =>
    simp only at taken
    split at taken
    · cases taken
      exact .thread (h := s.holder) .call
    · cases taken
  | cli c =>
    simp only at taken
    split at taken
    · rename_i flag lk st top
      cases taken
      exact .thread (h := s.holder) (top ▸ .cli)
    · cases taken
  | xchg c =>
    simp only at taken
    split at taken
    · rename_i lk st top
      split_ifs at taken
      · cases taken
        exact .panic (h := s.holder) fun popped => by simp at popped
      · cases taken
        exact .thread (top ▸ .lock)
    · cases taken
  | popcli c =>
    obtain ⟨st, last, rfl⟩ := Option.map_eq_some_iff.1 taken
    have holder : (s.pop c st).holder = s.holder := by
      rw [State.pop]
      split <;> rfl
    have popped := step_pop last s.holder
    rw [← holder] at popped
    exact popped
  | release c lk =>
    obtain ⟨st, last, rfl⟩ := Option.map_eq_some_iff.1 taken
    split_ifs
    · exact .panic (h := s.holder) fun popped => by simp at popped
    · exact step_pop last _
  | sched c =>
    simp only at taken
    split_ifs at taken with idle
    obtain ⟨p, runs⟩ := Option.ne_none_iff_exists'.1 fun none => idle (.inl none)
    split at taken
    · rename_i x failed
      cases taken
      refine .panic (h := s.holder) fun popped => ?_
      unfold schedCheck at failed
      split_ifs at failed <;> cases failed <;> simp at popped
    · rename_i checked
      cases taken
      refine .sched runs ?_
      unfold schedCheck at checked
      split_ifs at checked with _ once
      exact not_not.1 once
  | swtch c p =>
    simp only at taken
    split_ifs at taken with idle
    rw [not_or, not_not, not_not] at idle
    split at taken
    · rename_i top out
      cases taken
      exact .resume idle.1 top out
    · rename_i top out
      cases taken
      exact .begin idle.1 top out
    · cases taken
  | sti c =>
    simp only at taken
    split_ifs at taken with idle
    cases taken
    exact .thread (h := s.holder) (.set idle.2)
  | interrupt c =>
    simp only at taken
    split_ifs at taken with enabled
    cases taken
    exact .thread (h := s.holder) (.interrupt enabled)
  | iret c =>
    simp only at taken
    split at taken
    · rename_i flag st top
      cases taken
      exact .thread (h := s.holder) (top ▸ .iret)
    · cases taken
  | user c flag =>
    simp only at taken
    split_ifs at taken with idle
    cases taken
    exact .thread (h := s.holder) (.set idle.2)

end

/-! ## Stacks -/

/-- How many `pushcli` are not undone. -/
def depth : List Frame → Nat
  | [] => 0
  | .pushed _ :: st | .entered :: st => depth st + 1
  | _ :: st => depth st

/-- The flag before the outermost `pushcli` of the thread itself. -/
def before : List Frame → Option Bool
  | [] => none
  | .pushed flag :: st => if depth st = 0 then some flag else before st
  | _ :: st => before st

/-- The stack of a thread that is not switched out, in which code was interrupted outside of all `pushcli`. -/
def Clear : List Frame → Prop
  | [] => True
  | .trap _ :: st => depth st = 0 ∧ Clear st
  | .sched _ :: _ | .forkret :: _ => False
  | _ :: st => Clear st

section
variable {k k' : Cpu} {st st' : List Frame} {flag : Bool}

theorem before_of_depth (outside : depth st = 0) : before st = none := by
  induction st with
  | nil => rfl
  | cons f st ih => cases f <;> simp_all [depth, before]

/-- A thread that runs on its CPU. -/
structure Good (k : Cpu) (st : List Frame) : Prop where
  count : k.ncli = depth st
  masked : 0 < depth st → k.flag = false
  clear : Clear st

/-- `intena` is the flag before the outermost `pushcli`. -/
def Restores (intena : Bool) (st : List Frame) : Prop := ∀ flag, before st = some flag → intena = flag

/-- Undoing a `pushcli` does not fail; with the outermost one the flag comes back. -/
theorem Good.undo (good : Good k st) (last : undo st = some st') :
    popcli k = .ok { k with ncli := depth st', flag := if depth st' = 0 ∧ k.intena then true else false } ∧
      depth st = depth st' + 1 ∧ Clear st' := by
  have deep : depth st = depth st' + 1 ∧ Clear st' := by
    have clear := good.clear
    unfold Cli.undo at last
    split at last <;> cases last <;> exact ⟨rfl, clear⟩
  obtain ⟨deep, clear⟩ := deep
  have count := good.count
  have masked := good.masked (by omega)
  refine ⟨?_, deep, clear⟩
  unfold popcli
  rw [if_neg (by simp [masked]), if_neg (by omega), masked, show k.ncli - 1 = (depth st' : Int) by omega]
  simp

theorem Local.good (move : Local k st k' st') (good : Good k st) : Good k' st' := by
  cases move with
  | call => exact ⟨good.count, good.masked, good.clear⟩
  | @cli flag lk st =>
    have deep : depth ((lk.map .spin).toList ++ .pushed flag :: st) = depth st + 1 := by cases lk <;> rfl
    have count := good.count
    refine ⟨?_, fun _ => rfl, ?_⟩
    · rw [deep, pushcli, count]
      rfl
    · cases lk <;> exact good.clear
  | lock => exact ⟨good.count, good.masked, good.clear⟩
  | undo last popped =>
    obtain ⟨same, deep, clear⟩ := good.undo last
    obtain rfl := Except.ok.inj (popped.symm.trans same)
    refine ⟨rfl, fun positive => ?_, clear⟩
    exact if_neg fun zero => by omega
  | set none =>
    subst none
    exact ⟨good.count, fun positive => absurd positive (by decide), good.clear⟩
  | interrupt enabled =>
    have outside : depth st = 0 := by
      by_contra inside
      rw [good.masked (by omega)] at enabled
      cases enabled
    exact ⟨good.count, fun _ => rfl, outside, good.clear⟩
  | iret =>
    obtain ⟨outside, clear⟩ := good.clear
    exact ⟨good.count, fun positive => by omega, clear⟩

theorem Local.restores (move : Local k st k' st') (good : Good k st) (restores : Restores k.intena st) :
    Restores k'.intena st' := by
  cases move with
  | call => exact restores
  | @cli flag lk st =>
    intro flag' outer
    have outer' : (if depth st = 0 then some flag else before st) = some flag' := by
      cases lk <;> exact outer
    have count : k.ncli = depth st := good.count
    rw [pushcli]
    split_ifs at outer' with first
    · rw [if_pos (by omega), Option.some.inj outer']
    · rw [if_neg (by omega), restores flag' outer']
  | lock => exact restores
  | undo last popped =>
    obtain ⟨same, deep, clear⟩ := good.undo last
    obtain rfl := Except.ok.inj (popped.symm.trans same)
    intro flag outer
    have inside : depth st' ≠ 0 := fun zero => by simp [before_of_depth zero] at outer
    refine restores flag ?_
    unfold Cli.undo at last
    split at last <;> cases last
    · rw [before, if_neg inside, outer]
    · exact outer
  | set none => exact fun flag outer => by cases outer
  | interrupt => exact restores
  | iret => exact restores

/-- Only undoing a `pushcli` makes the thread leave the outermost one. -/
theorem Local.outermost (move : Local k st k' st') (good : Good k st) (inside : 0 < depth st) (outside : depth st' = 0) :
    k'.ncli = 0 ∧ k'.flag = k.intena := by
  cases move with
  | call => exact absurd outside inside.ne'
  | @cli flag lk st => cases lk <;> cases outside
  | lock => exact absurd outside inside.ne'
  | undo last popped =>
    obtain ⟨same, -⟩ := good.undo last
    obtain rfl := Except.ok.inj (popped.symm.trans same)
    refine ⟨congrArg Nat.cast outside, ?_⟩
    cases intena : k.intena <;> simp [outside]
  | set none =>
    subst none
    cases inside
  | interrupt => exact absurd outside inside.ne'
  | iret => exact absurd outside inside.ne'

end

section
variable {C P : Type} {s : State C P} {c c' : C} {p : P}

/-- What is kept for a process that is switched out. -/
def Kept (st : List Frame) : Prop :=
  st = [.forkret] ∨ ∃ intena rest, st = .sched intena :: rest ∧ depth rest = 1 ∧ Clear rest ∧ Restores intena rest

/-- The invariant: the threads that run are good, the other processes are switched out, and a scheduler whose CPU runs
a process has called `pushcli` once. -/
structure Inv (s : State C P) : Prop where
  running : ∀ c, Good (s.cpu c) (s.top c)
  restores : ∀ c p, s.proc c = some p → Restores (s.cpu c).intena (s.stack (.inr p))
  waiting : ∀ c, s.proc c ≠ none → depth (s.stack (.inl c)) = 1 ∧ Clear (s.stack (.inl c))
  kept : ∀ p, (∀ c, s.proc c ≠ some p) → Kept (s.stack (.inr p))
  once : ∀ c c' p, s.proc c = some p → s.proc c' = some p → c = c'
  fine : s.panic ≠ some .popcli ∧ s.panic ≠ some .popcliInterruptible

theorem Inv.init : Inv (State.init : State C P) where
  running _ := ⟨rfl, fun h => absurd h (Nat.lt_irrefl 0), trivial⟩
  restores _ _ runs := by cases runs
  waiting _ runs := absurd rfl runs
  kept _ _ := .inl rfl
  once _ _ _ runs := by cases runs
  fine := ⟨by simp [State.init], by simp [State.init]⟩

theorem thread_eq_proc : s.thread c = .inr p ↔ s.proc c = some p := by
  cases runs : s.proc c <;> simp [State.thread, runs]

theorem thread_eq_scheduler : s.thread c = .inl c' ↔ s.proc c = none ∧ c = c' := by
  cases runs : s.proc c <;> simp [State.thread, runs]

/-- Different CPUs run different threads. -/
theorem Inv.thread_ne (inv : Inv s) (other : c' ≠ c) : s.thread c' ≠ s.thread c := by
  intro same
  cases thread : s.thread c with
  | inl c1 =>
    rw [thread] at same
    exact other ((thread_eq_scheduler.1 same).2.trans (thread_eq_scheduler.1 thread).2.symm)
  | inr p =>
    rw [thread] at same
    exact other (inv.once c' c p (thread_eq_proc.1 same) (thread_eq_proc.1 thread))

theorem top_of_proc (runs : s.proc c = some p) : s.top c = s.stack (.inr p) := by rw [State.top, thread_eq_proc.2 runs]

theorem top_of_idle (idle : s.proc c = none) : s.top c = s.stack (.inl c) := by
  rw [State.top, thread_eq_scheduler.2 ⟨idle, rfl⟩]

/-- A process that is switched out does not run. -/
theorem Inv.idle_of_out (inv : Inv s) (out : ¬ Clear (s.stack (.inr p))) (c : C) : s.proc c ≠ some p := by
  intro runs
  rw [← top_of_proc runs] at out
  exact out (inv.running c).clear

end

section
variable {C P : Type} [DecidableEq C] [DecidableEq P] {s s' : State C P} {c : C} {p : P} {k : Cpu} {st : List Frame}

theorem Inv.thread (inv : Inv s) (move : Local (s.cpu c) (s.top c) k st) (h : Lock → Option C) :
    Inv { s.set c k st with holder := h } := by
  have stack {t : C ⊕ P} (other : t ≠ s.thread c) : (s.set c k st).stack t = s.stack t := update_of_ne other _ _
  have stackSelf : (s.set c k st).stack (s.thread c) = st := update_self ..
  have cpu {c' : C} (other : c' ≠ c) : (s.set c k st).cpu c' = s.cpu c' := update_of_ne other _ _
  have cpuSelf : (s.set c k st).cpu c = k := update_self ..
  refine ⟨fun c' => ?_, fun c' p runs => ?_, fun c' busy => ?_, fun p idle => ?_, inv.once, inv.fine⟩
  · show Good ((s.set c k st).cpu c') ((s.set c k st).stack (s.thread c'))
    rcases eq_or_ne c' c with rfl | other
    · rw [stackSelf, cpuSelf]
      exact move.good (inv.running c')
    · rw [stack (inv.thread_ne other), cpu other]
      exact inv.running c'
  · replace runs : s.proc c' = some p := runs
    have thread : s.thread c' = .inr p := thread_eq_proc.2 runs
    show Restores ((s.set c k st).cpu c').intena ((s.set c k st).stack (.inr p))
    rcases eq_or_ne c' c with rfl | other
    · rw [← thread, stackSelf, cpuSelf]
      refine move.restores (inv.running c') ?_
      rw [top_of_proc runs]
      exact inv.restores c' p runs
    · rw [← thread, stack (inv.thread_ne other), cpu other, thread]
      exact inv.restores c' p runs
  · show depth ((s.set c k st).stack (.inl c')) = 1 ∧ Clear ((s.set c k st).stack (.inl c'))
    rw [stack fun same => ?_]
    · exact inv.waiting c' busy
    · obtain ⟨idle, rfl⟩ := thread_eq_scheduler.1 same.symm
      exact busy idle
  · show Kept ((s.set c k st).stack (.inr p))
    rw [stack fun same => idle c (thread_eq_proc.1 same.symm)]
    exact inv.kept p idle

/-- A switch between process `p` and the scheduler of CPU `c`, to whichever of them `q` says. -/
theorem Inv.switch (inv : Inv s) {q : Option P} (own : ∀ c', s.proc c' = some p → c' = c) (new : q = none ∨ q = some p)
    (old : s.proc c = none ∨ s.proc c = some p) (good : Good k (q.elim (s.stack (.inl c)) fun _ => st))
    (restores : q = some p → Restores k.intena st)
    (waiting : q = some p → depth (s.stack (.inl c)) = 1 ∧ Clear (s.stack (.inl c)))
    (kept : q = none → Kept st) :
    Inv { s with
      proc := update s.proc c q
      cpu := update s.cpu c k
      stack := update s.stack (.inr p) st } := by
  have stack {t : C ⊕ P} (other : t ≠ .inr p) : update s.stack (.inr p) st t = s.stack t :=
    update_of_ne other _ _
  have proc {c' : C} (other : c' ≠ c) : update s.proc c q c' = s.proc c' := update_of_ne other _ _
  have runsOther {c' : C} {p' : P} (other : c' ≠ c) (runs : s.proc c' = some p') : p' ≠ p := fun same =>
    other (own c' (same ▸ runs))
  refine ⟨fun c' => ?_, fun c' p' runs => ?_, fun c' busy => ?_, fun p' idle => ?_, fun c1 c2 p' runs runs' => ?_, inv.fine⟩
  · rcases eq_or_ne c' c with rfl | other
    · simp only [State.top, State.thread, update_self]
      rcases new with rfl | rfl
      · simpa using good
      · simpa using good
    · simp only [State.top, State.thread, proc other, update_of_ne other]
      rw [stack]
      · exact inv.running c'
      · exact fun same => runsOther other (thread_eq_proc.1 same) rfl
  · rcases eq_or_ne c' c with rfl | other
    · simp only [update_self] at runs
      obtain rfl : p' = p := by
        rcases new with rfl | rfl
        · cases runs
        · exact (Option.some.inj runs).symm
      simpa using restores runs
    · dsimp only at runs ⊢
      rw [proc other] at runs
      rw [update_of_ne other, stack fun same => runsOther other runs (Sum.inr.inj same)]
      exact inv.restores c' p' runs
  · simp only [stack (t := .inl c') (by simp)]
    rcases eq_or_ne c' c with rfl | other
    · simp only [update_self] at busy
      exact waiting (new.resolve_left busy)
    · exact inv.waiting c' (by simpa [proc other] using busy)
  · rcases eq_or_ne p' p with rfl | different
    · simp only [update_self]
      refine kept (new.resolve_right fun runs => idle c ?_)
      simp only [update_self, runs]
    · dsimp only at idle ⊢
      rw [stack (by simpa using different)]
      refine inv.kept p' fun c' runs => ?_
      rcases eq_or_ne c' c with rfl | other
      · rcases old with none | some
        · rw [none] at runs
          cases runs
        · exact different (Option.some.inj (runs.symm.trans some))
      · exact idle c' (by rw [proc other, runs])
  · dsimp only at runs runs'
    have target {c' : C} (here : update s.proc c q c' = some p') (same : c' = c) : p' = p := by
      rw [same, update_self] at here
      exact Option.some.inj (here.symm.trans (new.resolve_left fun none => by simp [none] at here))
    rcases eq_or_ne c1 c with first | first
    · rcases eq_or_ne c2 c with second | second
      · rw [first, second]
      · rw [proc second] at runs'
        exact absurd (target runs first) (runsOther second runs')
    · rcases eq_or_ne c2 c with second | second
      · rw [proc first] at runs
        exact absurd (target runs' second) (runsOther first runs)
      · rw [proc first] at runs
        rw [proc second] at runs'
        exact inv.once c1 c2 p' runs runs'

/-- The scheduler of CPU `c` switches to process `p`. -/
theorem Inv.dispatch (inv : Inv s) {flag intena : Bool} (idle : s.proc c = none) (stack : s.top c = [.pushed flag])
    (out : ∀ c', s.proc c' ≠ some p) (deep : depth st = 1) (clear : Clear st) (restores : Restores intena st) :
    Inv { s with
      proc := update s.proc c (some p)
      cpu := update s.cpu c { s.cpu c with intena := intena }
      stack := update s.stack (.inr p) st } := by
  have good := inv.running c
  rw [stack] at good
  refine inv.switch (fun c' runs => absurd runs (out c')) (.inr rfl) (.inl idle) ?_ (fun _ => restores) (fun _ => ?_) ?_
  · exact ⟨good.count.trans (congrArg Nat.cast deep.symm), fun _ => good.masked Nat.one_pos, clear⟩
  · rw [← top_of_idle idle, stack]
    exact ⟨rfl, trivial⟩
  · rintro ⟨⟩

/-- **Every step keeps the invariant.** -/
theorem Inv.step (inv : Inv s) (taken : Step s s') : Inv s' := by
  cases taken with
  | thread move => exact inv.thread move _
  | @sched c p runs one =>
    have good := inv.running c
    have deep : depth (s.top c) = 1 := by
      have := good.count
      omega
    obtain ⟨deep', clear'⟩ := inv.waiting c (by simp [runs])
    rw [State.set, thread_eq_proc.2 runs]
    refine inv.switch (q := none) (fun c' runs' => inv.once c' c p runs' runs) (.inl rfl) (.inr runs) ?_ ?_ ?_ fun _ => ?_
    · exact ⟨by rw [one]; exact congrArg Nat.cast deep'.symm, fun _ => good.masked (by omega), clear'⟩
    · rintro ⟨⟩
    · rintro ⟨⟩
    · refine .inr ⟨_, _, rfl, deep, good.clear, ?_⟩
      rw [top_of_proc runs]
      exact inv.restores c p runs
  | @resume c p flag intena st idle stack out =>
    have elsewhere := inv.idle_of_out (p := p) (by rw [out]; exact id)
    rcases inv.kept p elsewhere with new | ⟨intena', rest, kept, deep, clear, restores⟩
    · rw [out] at new
      cases new
    · obtain ⟨same, rfl⟩ := List.cons.inj (out.symm.trans kept)
      cases same
      exact inv.dispatch idle stack elsewhere deep clear restores
  | @begin c p flag idle stack out =>
    have elsewhere := inv.idle_of_out (p := p) (by rw [out]; exact id)
    have restores : Restores (s.cpu c).intena [.entered] := by rintro _ ⟨⟩
    have clear : Clear [.entered] := trivial
    have begun := inv.dispatch idle stack elsewhere rfl clear restores
    rwa [show ({ s.cpu c with intena := (s.cpu c).intena } : Cpu) = s.cpu c from rfl, update_eq_self] at begun
  | @panic x h why =>
    have fine : some x ≠ some .popcli ∧ some x ≠ some .popcliInterruptible := by
      by_contra bad
      have bad : x = .popcli ∨ x = .popcliInterruptible := by simpa [not_and_or, or_iff_not_imp_left] using bad
      obtain ⟨c, st, last, failed⟩ := why bad
      rw [((inv.running c).undo last).1] at failed
      cases failed
    exact ⟨inv.running, inv.restores, inv.waiting, inv.kept, inv.once, fine⟩

/-- A step with which a process undoes its outermost `pushcli`. -/
theorem Inv.restored (inv : Inv s) (taken : Step s s') (runs : s.proc c = some p) (inside : 0 < depth (s.stack (.inr p)))
    (outside : depth (s'.stack (.inr p)) = 0) : (s'.cpu c).ncli = 0 ∧ (s'.cpu c).flag = (s.cpu c).intena := by
  have thread := thread_eq_proc.2 runs
  have unchanged : s'.stack (.inr p) = s.stack (.inr p) → False := fun same => by
    rw [same] at outside
    omega
  have notOut {p' : P} (out : ¬ Clear (s.stack (.inr p'))) : Sum.inr p ≠ (.inr p' : C ⊕ P) := fun same =>
    inv.idle_of_out out c (Sum.inr.inj same ▸ runs)
  cases taken with
  | @thread c' k st h move =>
    rcases eq_or_ne c' c with rfl | other
    · change depth (update s.stack (s.thread c') st (.inr p)) = 0 at outside
      rw [thread, update_self] at outside
      rw [← top_of_proc runs] at inside
      show (update s.cpu c' k c').ncli = 0 ∧ (update s.cpu c' k c').flag = _
      rw [update_self]
      exact move.outermost (inv.running c') inside outside
    · exact (unchanged (update_of_ne (thread ▸ (inv.thread_ne other).symm) _ _)).elim
  | @sched c' p' runs' one =>
    rcases eq_or_ne c' c with rfl | other
    · change depth (update s.stack (s.thread c') _ (.inr p)) = 0 at outside
      rw [thread, update_self, depth, top_of_proc runs] at outside
      · omega
      all_goals simp
    · exact (unchanged (update_of_ne (thread ▸ (inv.thread_ne other).symm) _ _)).elim
  | resume _ _ out => exact (unchanged (update_of_ne (notOut (by rw [out]; exact id)) _ _)).elim
  | begin _ _ out => exact (unchanged (update_of_ne (notOut (by rw [out]; exact id)) _ _)).elim
  | panic _ => exact (unchanged rfl).elim

end

/-- In every run, interrupts are disabled while a CPU counts a `pushcli`; `popcli` does not panic; and when a process undoes
its outermost `pushcli` the flag is what it was before it. -/
theorem interrupt_state_preserved {C P : Type} [DecidableEq C] [DecidableEq P] {tr : List (State C P × Event C P)}
    {s : State C P} (run : Run step .init tr s) :
    (∀ c, 0 < (s.cpu c).ncli → (s.cpu c).flag = false) ∧ s.panic ≠ some .popcli ∧ s.panic ≠ some .popcliInterruptible ∧
      ∀ e s' c p flag, step s e = some s' → s.proc c = some p → 0 < depth (s.stack (.inr p)) →
        depth (s'.stack (.inr p)) = 0 → before (s.stack (.inr p)) = some flag →
        (s'.cpu c).ncli = 0 ∧ (s'.cpu c).flag = flag := by
  have inv : Inv s := run.invariant_all Inv .init fun s e s' inv taken => inv.step (step_cases taken)
  refine ⟨fun c positive => ?_, inv.fine.1, inv.fine.2, fun e s' c p flag taken runs inside outside was => ?_⟩
  · have good := inv.running c
    exact good.masked (by have := good.count; omega)
  · rw [← inv.restores c p runs flag was]
    exact inv.restored (step_cases taken) runs inside outside

/-- The timer interrupts the first process, which yields to the second one; that one sleeps with interrupts enabled
before, and the first one goes on. -/
def yields : List (Event (Fin 1) (Fin 2)) :=
  let acquires : List (Event (Fin 1) (Fin 2)) := [.readeflags 0 (some .ptable), .cli 0, .xchg 0]
  let begins (p : Fin 2) : List (Event (Fin 1) (Fin 2)) := [.sti 0] ++ acquires ++ [.swtch 0 p, .release 0 .ptable]
  let first : List (Event (Fin 1) (Fin 2)) := [.interrupt 0] ++ acquires ++ [.sched 0, .release 0 .ptable]
  begins 0 ++ first ++ begins 1 ++ acquires ++ [.sched 0, .swtch 0 0]

/-- The last `release` leaves interrupts off, as they were before the timer's `acquire`. -/
theorem interrupt_state_preserved_yield : ∃ tr s s', Run step (State.init : State (Fin 1) (Fin 2)) tr s ∧
    (s.cpu 0).ncli = 1 ∧ step s (.release 0 .ptable) = some s' ∧ (s'.cpu 0).ncli = 0 ∧ (s'.cpu 0).flag = false := by
  have final : (exec step (State.init : State (Fin 1) (Fin 2)) yields).bind (fun s =>
      (step s (.release 0 .ptable)).map fun s' => (s.proc 0, (s.cpu 0).ncli, s.stack (.inr 0), s'.stack (.inr 0))) =
      some (some 0, 1, [.pushed false, .trap true], [.trap true]) := by
    decide +kernel
  obtain ⟨s, done, rest⟩ := Option.bind_eq_some_iff.1 final
  obtain ⟨s', taken, same⟩ := Option.map_eq_some_iff.1 rest
  obtain ⟨runs, same⟩ := Prod.mk.inj same
  obtain ⟨count, same⟩ := Prod.mk.inj same
  obtain ⟨old, new⟩ := Prod.mk.inj same
  have run := run_of_exec done
  have restored := (interrupt_state_preserved run).2.2.2 _ s' 0 0 false taken runs (by rw [old]; decide) (by rw [new]; rfl)
    (by rw [old]; rfl)
  exact ⟨_, s, s', run, count, taken, restored⟩

end Xv6.Cli
