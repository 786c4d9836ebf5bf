import Xv6.Sched.Family

/-!
# The process tree

What the tree knows of a process is its slot's stage of life, its pid, its parent
and whether it sleeps in `wait` or `wait_stat`. A step of the kernel changes this
in one of a few ways, `Change`, and everything else it does leaves the tree alone.
-/

namespace Xv6.Sched

open Xv6.Lib

variable {ncpu : Nat} {b : Build} {k k' : Kernel ncpu} {e : Event ncpu} {c : Fin ncpu} {p q me : Slot}

/-! ## What the tree is made of -/

/-- The life of a process, without its scheduling states. -/
inductive Stage where
  | unused | embryo | alive | zombie
  deriving DecidableEq, Repr

def ProcState.stage : ProcState → Stage
  | .unused => .unused
  | .embryo => .embryo
  | .sleeping | .runnable | .running => .alive
  | .zombie => .zombie

def Kernel.stage (k : Kernel ncpu) (p : Slot) : Stage := (k.tab.proc p).state.stage

def Kernel.pid (k : Kernel ncpu) (p : Slot) : Int := (k.tab.proc p).pid

def Kernel.parent (k : Kernel ncpu) (p : Slot) : Option Slot := (k.tab.proc p).parent

/-- Process `p` sleeps in `wait` or `wait_stat`. -/
def Blocked (k : Kernel ncpu) (p : Slot) : Prop :=
  SleepsOn k.tab p (.proc p) ∧ (k.resume p = .wait ∨ k.resume p = .waitStat)

/-- The pid of the process that exits in this step. -/
def exited (k : Kernel ncpu) : Event ncpu → Option Int
  | .exit c => (k.current c).map k.pid
  | _ => none

/-- The process that exits in this step. -/
def exiting (k : Kernel ncpu) : Event ncpu → Option Slot
  | .exit c => k.current c
  | _ => none

/-- The child that a `fork` starts in this step. -/
def forked (k : Kernel ncpu) : Event ncpu → Option Slot
  | .forkDone c => match k.cpu c with
    | .run p => k.np p
    | _ => none
  | _ => none

/-- The caller of `wait` or `wait_stat` and the child that it reaps in this step, in its first scan or in
a scan after a sleep. -/
def reaped (k : Kernel ncpu) : Event ncpu → Option (Slot × Slot)
  | .wait c | .waitStat c => (k.current c).bind fun me => (waitScan k.tab me slots false).1.map fun q => (me, q)
  | .resume c => match k.cpu c with
    | .switchTo me => match k.resume me with
      | .wait | .waitStat => (waitScan k.tab me slots false).1.map fun q => (me, q)
      | _ => none
    | _ => none
  | _ => none

/-- The step keeps what the tree knows of `p`. -/
structure Same (k k' : Kernel ncpu) (p : Slot) : Prop where
  stage : k'.stage p = k.stage p
  pid : k'.pid p = k.pid p
  parent : k'.parent p = k.parent p
  blocked : Blocked k' p → Blocked k p

/-- What a step can do to the tree. -/
inductive Change (k : Kernel ncpu) (e : Event ncpu) (k' : Kernel ncpu) : Prop where
  | quiet (same : ∀ p, Same k k' p) (nextpid : k'.nextpid = k.nextpid) (noExit : exited k e = none)
      (noReap : reaped k e = none)
  /-- `me` goes to sleep in `wait` -/
  | block (me : Slot) (stage : k.stage me = .alive) (stage' : k'.stage me = .alive) (pid : k'.pid me = k.pid me)
      (parent : k'.parent me = k.parent me) (childless : ∀ q, k.parent q = some me → k.stage q ≠ .zombie)
      (others : ∀ p ≠ me, Same k k' p) (nextpid : k'.nextpid = k.nextpid) (noExit : exited k e = none)
      (noReap : reaped k e = none)
  /-- `me` reaps its child `q` -/
  | reap (me q : Slot) (reaps : reaped k e = some (me, q)) (child : k.parent q = some me) (dead : k.stage q = .zombie)
      (gone : k'.stage q = .unused) (orphan : k'.parent q = none) (others : ∀ p ≠ q, Same k k' p)
      (nextpid : k'.nextpid = k.nextpid) (noExit : exited k e = none) (pid : k'.pid q = 0)
  /-- `me` exits -/
  | exit (me : Slot) (exits : exited k e = some (k.pid me)) (alive : k.stage me = .alive) (notInit : me ≠ k.initproc)
      (dead : k'.stage me = .zombie) (stages : ∀ p ≠ me, k'.stage p = k.stage p) (pid : ∀ p, k'.pid p = k.pid p)
      (parent : ∀ p, k'.parent p = if k.parent p = some me then some k.initproc else k.parent p)
      (blocked : ∀ p, Blocked k' p → Blocked k p) (parentAwake : ∀ p, k.parent me = some p → ¬ Blocked k' p)
      (initAwake : (∃ q, k.parent q = some me ∧ k.stage q = .zombie) → ¬ Blocked k' k.initproc)
      (nextpid : k'.nextpid = k.nextpid) (noReap : reaped k e = none) (who : exiting k e = some me)
  /-- `allocproc` takes the slot `q` -/
  | alloc (q : Slot) (free : k.stage q = .unused) (new : k'.stage q = .embryo) (pid : k'.pid q = k.nextpid)
      (parent : k'.parent q = k.parent q) (others : ∀ p ≠ q, Same k k' p) (nextpid : k'.nextpid = k.nextpid + 1)
      (noExit : exited k e = none) (noReap : reaped k e = none)
  /-- a `fork` that fails gives its slot back -/
  | abandon (q : Slot) (new : k.stage q = .embryo) (free : k'.stage q = .unused) (parent : k'.parent q = k.parent q)
      (others : ∀ p ≠ q, Same k k' p) (nextpid : k'.nextpid = k.nextpid) (noExit : exited k e = none)
      (noReap : reaped k e = none) (pid : k'.pid q = k.pid q)
  /-- a `fork` by `p` ends with the child `q` -/
  | born (p q : Slot) (alive : k.stage p = .alive) (new : k.stage q = .embryo) (started : k'.stage q = .alive)
      (parent : k'.parent q = some p) (pid : k'.pid q = k.pid q) (awake : ¬ Blocked k' q)
      (others : ∀ r ≠ q, Same k k' r) (nextpid : k'.nextpid = k.nextpid) (noExit : exited k e = none)
      (noReap : reaped k e = none) (forks : forked k e = some q)

/-- A view that all slots but `q` keep, and `q` too. -/
theorem kept_of_others {α : Type} {f f' : Slot → α} (mine : f' q = f q) (others : ∀ p ≠ q, f' p = f p) (p : Slot) :
    f' p = f p := by
  rcases eq_or_ne p q with rfl | ne
  · exact mine
  · exact others p ne

/-! ## Every step is one of them -/

theorem Same.refl (k : Kernel ncpu) (p : Slot) : Same k k p := ⟨rfl, rfl, rfl, id⟩

theorem stage_of_states {t t' : Table} (states : WakesOnly t t') (p : Slot) :
    (t'.proc p).state.stage = (t.proc p).state.stage := by
  rcases states p with same | ⟨slept, woke⟩
  · rw [same]
  · rw [slept, woke]
    rfl

/-- Waking sleepers changes nothing in the tree. -/
theorem same_of_awakens (awakens : Awakens k.tab k'.tab) (resume : k'.resume = k.resume) (p : Slot) : Same k k' p where
  stage := stage_of_states awakens.states p
  pid := awakens.pid p
  parent := awakens.parent p
  blocked blocked := ⟨awakens.sleepsOn blocked.1, resume ▸ blocked.2⟩

/-- A process that stays alive and is not asleep afterwards. -/
theorem same_of_awake (pid : k'.pid p = k.pid p) (parent : k'.parent p = k.parent p) (alive : k.stage p = .alive)
    (alive' : k'.stage p = .alive) (awake : (k'.tab.proc p).state ≠ .sleeping) : Same k k' p :=
  ⟨alive'.trans alive.symm, pid, parent, fun blocked => absurd blocked.1.1 awake⟩

/-- A slot whose record and point of return are as before. -/
theorem same_of_eq (proc : k'.tab.proc p = k.tab.proc p) (resume : k'.resume p = k.resume p) : Same k k' p where
  stage := by rw [Kernel.stage, proc]; rfl
  pid := by rw [Kernel.pid, proc]; rfl
  parent := by rw [Kernel.parent, proc]; rfl
  blocked blocked := ⟨⟨proc ▸ blocked.1.1, proc ▸ blocked.1.2⟩, resume ▸ blocked.2⟩

theorem same_of_tab (tab : k'.tab = k.tab) (resume : k'.resume = k.resume) (p : Slot) : Same k k' p :=
  same_of_eq (by rw [tab]) (by rw [resume])

theorem Same.release (same : Same k k' p) (c : Fin ncpu) (ctx : Ctx) : Same k (k'.release c ctx) p :=
  ⟨same.stage, same.pid, same.parent, same.blocked⟩

/-- A round of the scheduler writes no identifier, parent or channel. -/
theorem schedule_fields (taken : schedule b k c = some k') (p : Slot) :
    k'.pid p = k.pid p ∧ k'.parent p = k.parent p ∧ (k'.tab.proc p).chan = (k.tab.proc p).chan := by
  have same := schedule_data (f := fun r => (r.pid, r.parent, r.chan)) ⟨fun _ _ => rfl, fun _ _ => rfl, fun _ _ _ => rfl⟩
    (fun _ _ => rfl) taken p
  simpa [Kernel.pid, Kernel.parent] using same.1

/-- A round of the scheduler of a queue kernel. -/
theorem schedule_same (inv : Inv b False k) (taken : schedule b k c = some k') :
    (∀ p, Same k k' p) ∧ k'.nextpid = k.nextpid := by
  obtain ⟨l, ready, _⟩ := inv.queue
  obtain ⟨t, total, g, same, outcome⟩ := schedule_cases ready b c
  have fields := schedule_fields taken
  rcases outcome with released | ⟨q, inside, switched⟩
  · cases released.symm.trans taken
    refine ⟨fun p => ⟨?_, (fields p).1, (fields p).2.1, ?_⟩, rfl⟩
    · exact congrArg ProcState.stage (same.state p)
    · intro blocked
      exact ⟨⟨(same.state p).symm.trans blocked.1.1, (fields p).2.2 ▸ blocked.1.2⟩, blocked.2⟩
  · cases switched.symm.trans taken
    have awake := ready.runnable q inside
    have states (p : Slot) (ne : p ≠ q) : (((removeProcFromRRqueue t q).modify q fun r =>
        { r with state := .running }).proc p).state = (k.tab.proc p).state := by
      rw [modify_proc_ne _ q _ ne, remove_state, same.state]
    refine ⟨fun p => ?_, rfl⟩
    rcases eq_or_ne p q with rfl | ne
    · refine same_of_awake (fields p).1 (fields p).2.1 ?_ ?_ ?_
      · rw [Kernel.stage, awake]; rfl
      · simp [Kernel.stage, ProcState.stage]
      · simp
    · refine ⟨congrArg ProcState.stage (states p ne), (fields p).1, (fields p).2.1, ?_⟩
      intro blocked
      exact ⟨⟨(states p ne).symm.trans blocked.1.1, (fields p).2.2 ▸ blocked.1.2⟩, blocked.2⟩

theorem stage_running (running : (k.tab.proc p).state = .running) : k.stage p = .alive := by
  rw [Kernel.stage, running]
  rfl

/-- What a round of the loop of `wait` or `wait_stat` does. The round may begin with the store to `chan` at the
end of a sleep: `k0` is the state before it. -/
theorem waitBody_change {k0 : Kernel ncpu} {clear : Proc → Proc} {r : Resume}
    (running : (k0.tab.proc me).state = .running) (others : ∀ p ≠ me, k.tab.proc p = k0.tab.proc p)
    (state : (k.tab.proc me).state = (k0.tab.proc me).state) (pid : k.pid me = k0.pid me)
    (parent : k.parent me = k0.parent me) (resume : k.resume = k0.resume) (nextpid : k.nextpid = k0.nextpid)
    (unused : ∀ q, (clear q).state = .unused) (orphan : ∀ q, (clear q).parent = none)
    (nameless : ∀ q, (clear q).pid = 0) (noExit : exited k0 e = none)
    (reaps : reaped k0 e = (waitScan k0.tab me slots false).1.map fun q => (me, q)) :
    Change k0 e (waitBody k c me clear r) := by
  have alive : k0.stage me = .alive := stage_running running
  have states : ∀ p, (k.tab.proc p).state = (k0.tab.proc p).state := by
    intro p
    rcases eq_or_ne p me with rfl | ne
    · exact state
    · rw [others p ne]
  have parents : ∀ p, (k.tab.proc p).parent = (k0.tab.proc p).parent := by
    intro p
    rcases eq_or_ne p me with rfl | ne
    · exact parent
    · rw [others p ne]
  have scan : waitScan k.tab me slots false = waitScan k0.tab me slots false := waitScan_congr parents states
  have awake : Same k0 k me := same_of_awake pid parent alive (by rw [Kernel.stage, state]; exact alive)
    (by rw [state, running]; decide)
  have same : ∀ p, Same k0 k p := by
    intro p
    rcases eq_or_ne p me with rfl | ne
    · exact awake
    · exact same_of_eq (others p ne) (congrFun resume p)
  unfold waitBody
  split
  · rename_i q kids found
    rw [scan] at found
    obtain ⟨child, dead⟩ := waitScan_some found
    have other : q ≠ me := by
      rintro rfl
      rw [running] at dead
      cases dead
    refine .reap me q (by rw [reaps, found]; rfl) child (by rw [Kernel.stage, dead]; rfl) ?_ ?_ ?_ nextpid noExit ?_
    · simp [Kernel.stage, unused, ProcState.stage]
    · simp [Kernel.parent, orphan]
    · intro p ne
      have kept : (k.tab.modify q clear).proc p = k.tab.proc p := modify_proc_ne _ q _ ne
      exact ⟨by rw [← (same p).stage, Kernel.stage, Kernel.stage]; exact congrArg (·.state.stage) kept,
        (congrArg Proc.pid kept).trans (same p).pid, (congrArg Proc.parent kept).trans (same p).parent,
        fun blocked => (same p).blocked ⟨⟨kept ▸ blocked.1.1, kept ▸ blocked.1.2⟩, blocked.2⟩⟩
    · simp [Kernel.pid, nameless]
  · rename_i kids found
    rw [scan] at found
    have noReap : reaped k0 e = none := by rw [reaps, found]; rfl
    split_ifs
    · exact .quiet (fun p => ⟨(same p).stage, (same p).pid, (same p).parent, (same p).blocked⟩) nextpid noExit noReap
    · refine .block me alive ?_ ?_ ?_ ?_ ?_ nextpid noExit noReap
      · simp [Kernel.stage, Kernel.enterSched, Kernel.setCpu, ProcState.stage]
      · simpa [Kernel.pid, Kernel.enterSched, Kernel.setCpu] using pid
      · simpa [Kernel.parent, Kernel.enterSched, Kernel.setCpu] using parent
      · intro q child dead
        refine waitScan_none found (mem_slots q) ⟨child, ?_⟩
        unfold Kernel.stage at dead
        cases at' : (k0.tab.proc q).state <;> simp_all [ProcState.stage]
      · intro p ne
        refine same_of_eq ?_ ?_
        · simpa [Kernel.enterSched, Kernel.setCpu, modify_proc_ne, ne] using others p ne
        · simpa [Kernel.enterSched, Kernel.setCpu, ne] using congrFun resume p

/-- The running process leaves its CPU, asleep or `RUNNABLE`, but not in `wait`. -/
theorem leave_same {t : Table} {r : Resume} (running : (k.tab.proc me).state = .running)
    (others : ∀ p ≠ me, (t.proc p).state = (k.tab.proc p).state ∧ (t.proc p).pid = (k.tab.proc p).pid ∧
      (t.proc p).parent = (k.tab.proc p).parent ∧ (t.proc p).chan = (k.tab.proc p).chan)
    (alive : (t.proc me).state.stage = .alive) (pid : (t.proc me).pid = (k.tab.proc me).pid)
    (parent : (t.proc me).parent = (k.tab.proc me).parent) (elsewhere : r = .yield ∨ r = .sleep) (p : Slot) :
    Same k ({ k with tab := t }.enterSched c me r) p := by
  rcases eq_or_ne p me with rfl | ne
  · refine ⟨alive.trans (stage_running running).symm, pid, parent, ?_⟩
    rintro ⟨_, inWait⟩
    rcases elsewhere with rfl | rfl <;> simp [Kernel.enterSched] at inWait
  · obtain ⟨state, pid, parent, chan⟩ := others p ne
    refine ⟨congrArg ProcState.stage state, pid, parent, ?_⟩
    rintro ⟨sleeps, inWait⟩
    refine ⟨⟨state.symm.trans sleeps.1, chan.symm.trans sleeps.2⟩, ?_⟩
    simpa [Kernel.enterSched, ne] using inWait

/-- A system call that only modifies the scheduling fields of a process. -/
theorem modify_others (t : Table) (me : Slot) (f : Proc → Proc) : ∀ p ≠ me,
    ((t.modify me f).proc p).state = (t.proc p).state ∧ ((t.modify me f).proc p).pid = (t.proc p).pid ∧
      ((t.modify me f).proc p).parent = (t.proc p).parent ∧ ((t.modify me f).proc p).chan = (t.proc p).chan := by
  intro p ne
  rw [modify_proc_ne t me f ne]
  exact ⟨rfl, rfl, rfl, rfl⟩

/-- `exit`, seen from the tree. -/
theorem exit_change (running : (k.tab.proc me).state = .running) (notInit : me ≠ k.initproc)
    (exits : exited k e = some (k.pid me)) (noReap : reaped k e = none) (who : exiting k e = some me) :
    Change k e (exit b k c me) := by
  let t := wakeup1 b (.ofProc (k.tab.proc me).parent) k.tab
  have woken : Awakens k.tab t := .wakeup1 _ _
  have moved : Reparents me k.initproc slots t (reparent b me k.initproc t) := reparent_reparents b me k.initproc t
  let ends (q : Proc) : Proc := { q with state := .zombie, ttime := k.ticks }
  have tab : (exit b k c me).tab = (reparent b me k.initproc t).modify me ends := rfl
  have pid : ∀ p, (exit b k c me).pid p = k.pid p := by
    intro p
    rw [Kernel.pid, tab, modify_data _ me p Proc.pid ends rfl, moved.pid p, woken.pid p]
    rfl
  have chan : ∀ p, ((exit b k c me).tab.proc p).chan = (k.tab.proc p).chan := by
    intro p
    rw [tab, modify_data _ me p Proc.chan ends rfl, moved.chan p, woken.chan p]
  have parent : ∀ p, (exit b k c me).parent p = if k.parent p = some me then some k.initproc else k.parent p := by
    intro p
    rw [Kernel.parent, tab, modify_data _ me p Proc.parent ends rfl, moved.parent p, woken.parent p]
    by_cases child : k.parent p = some me
    · rw [if_pos ⟨mem_slots p, child⟩, if_pos child]
    · rw [if_neg fun both => child both.2, if_neg child]
      rfl
  have states : ∀ p ≠ me, ((exit b k c me).tab.proc p).state = ((reparent b me k.initproc t).proc p).state := by
    intro p ne
    rw [tab, modify_proc_ne _ me ends ne]
  have dead : ((exit b k c me).tab.proc me).state = .zombie := by
    rw [tab, modify_proc_self]
  have resumes : ∀ p ≠ me, (exit b k c me).resume p = k.resume p := fun p ne => Function.update_of_ne ne ..
  -- whoever is asleep at the end was asleep at every point before
  have asleep : ∀ {p ch}, SleepsOn (exit b k c me).tab p ch → p ≠ me ∧ SleepsOn (reparent b me k.initproc t) p ch := by
    rintro p ch ⟨sleeping, on⟩
    have ne : p ≠ me := by
      rintro rfl
      rw [dead] at sleeping
      cases sleeping
    refine ⟨ne, (states p ne).symm.trans sleeping, ?_⟩
    rw [moved.chan p, woken.chan p, ← chan p]
    exact on
  have blocked : ∀ p, Blocked (exit b k c me) p → Blocked k p := by
    rintro p ⟨sleeps, inWait⟩
    obtain ⟨ne, sleeps⟩ := asleep sleeps
    exact ⟨woken.sleepsOn (moved.sleepsOn sleeps), resumes p ne ▸ inWait⟩
  refine .exit me exits (stage_running running) notInit (congrArg ProcState.stage dead) ?_ pid parent blocked ?_ ?_ rfl
    noReap who
  · intro p ne
    rw [Kernel.stage, states p ne, stage_of_states moved.states, stage_of_states woken.states]
    rfl
  · rintro p isParent ⟨sleeps, _⟩
    have sleeps := moved.sleepsOn (asleep sleeps).2
    have channel : Chan.ofProc (k.tab.proc me).parent = .proc p := by rw [show (k.tab.proc me).parent = some p from isParent]; rfl
    exact wakeup1_awake b _ k.tab p (channel ▸ sleeps)
  · rintro ⟨q, child, zombie⟩ ⟨sleeps, _⟩
    refine moved.wakes ⟨q, mem_slots q, (woken.parent q).trans child, ?_⟩ (asleep sleeps).2
    have stage := (stage_of_states woken.states q).trans zombie
    cases at' : (t.proc q).state <;> simp_all [ProcState.stage]

/-- `allocproc`, seen from the tree. -/
theorem allocproc_change (parent : Slot) (noExit : exited k e = none) (noReap : reaped k e = none) :
    Change k e (allocproc k parent) := by
  unfold allocproc
  split
  · exact .quiet (.refl k) rfl noExit noReap
  · rename_i q found
    have unused : (k.tab.proc q).state = .unused := by simpa using List.find?_some found
    refine .alloc q (by rw [Kernel.stage, unused]; rfl) ?_ ?_ ?_ ?_ rfl noExit noReap
    · simp [Kernel.stage, ProcState.stage]
    · simp [Kernel.pid]
    · simp [Kernel.parent]
    · exact fun p ne => same_of_eq (by simp [modify_proc_ne, ne]) rfl

/-- The end of `fork`, seen from the tree. -/
theorem forkDone_change (running : (k.tab.proc p).state = .running) (embryo : (k.tab.proc q).state = .embryo)
    (noExit : exited k e = none) (noReap : reaped k e = none) (forks : forked k e = some q) :
    Change k e (forkDone b k p q) := by
  let fills (r : Proc) : Proc := { r with
    parent := some p, runQuanta := 0, rutime := 0, ctime := k.ticks, ttime := 0, stime := 0, retime := 0,
    priority := (k.tab.proc p).priority }
  have tab : (forkDone b k p q).tab = makeRunnable b (k.tab.modify q fills) q := rfl
  have started : ((forkDone b k p q).tab.proc q).state = .runnable := by
    rw [tab, makeRunnable_state, if_pos rfl]
  refine .born p q (stage_running running) (by rw [Kernel.stage, embryo]; rfl) (congrArg ProcState.stage started) ?_ ?_ ?_ ?_
    rfl noExit noReap forks
  · rw [Kernel.parent, tab, (Awakens.makeRunnable_fields b _ q q).2.1, modify_proc_self]
  · rw [Kernel.pid, tab, (Awakens.makeRunnable_fields b _ q q).1, modify_proc_self]
    rfl
  · intro blocked
    have asleep := blocked.1.1
    rw [started] at asleep
    cases asleep
  · intro r ne
    have state : ((forkDone b k p q).tab.proc r).state = (k.tab.proc r).state := by
      rw [tab, makeRunnable_state, if_neg ne, modify_proc_ne _ q fills ne]
    obtain ⟨pid, parent, chan⟩ := Awakens.makeRunnable_fields b (k.tab.modify q fills) q r
    rw [modify_proc_ne _ q fills ne] at pid parent chan
    refine ⟨congrArg ProcState.stage state, pid, parent, ?_⟩
    rintro ⟨sleeps, inWait⟩
    refine ⟨⟨state.symm.trans sleeps.1, chan.symm.trans sleeps.2⟩, ?_⟩
    have same : (forkDone b k p q).resume r = k.resume r := Function.update_of_ne ne ..
    exact same ▸ inWait

/-- **What a step does to the tree.** -/
theorem step_change (inv : Inv b False k) (taken : step b k e = some k') : Change k e k' := by
  have awakens {t : Table} (woken : Awakens k.tab t) (p : Slot) : Same k { k with tab := t } p :=
    ⟨stage_of_states woken.states p, woken.pid p, woken.parent p, fun blocked => ⟨woken.sleepsOn blocked.1, blocked.2⟩⟩
  cases step_cases taken with
  | schedule _ _ round =>
    obtain ⟨same, nextpid⟩ := schedule_same inv round
    exact .quiet same nextpid rfl rfl
  | rescan | back | backScan => exact .quiet (same_of_tab rfl rfl) rfl rfl rfl
  | @scan c i at_ =>
    refine .quiet ?_ ?_ rfl rfl
    · unfold scan
      split
      · rename_i inside
        dsimp only
        split
        · exact same_of_tab rfl rfl
        · rename_i other
          intro p
          rcases eq_or_ne p ⟨i, inside⟩ with rfl | ne
          · refine same_of_awake ?_ ?_ ?_ ?_ ?_
            · simp [Kernel.pid]
            · simp [Kernel.parent]
            · rw [Kernel.stage, not_not.1 other]; rfl
            · simp [Kernel.stage, ProcState.stage]
            · simp
          · exact same_of_eq (by simp [modify_proc_ne, ne]) rfl
      · exact same_of_tab rfl rfl
    · unfold scan
      split
      · dsimp only
        split <;> rfl
      · rfl
  | @resume c p at_ =>
    have running := (inv.switchTo c p at_).1
    have awake (r : Slot) : Same k { k with tab := k.tab.modify p fun q => { q with chan := .null } } r := by
      rcases eq_or_ne r p with rfl | ne
      · exact same_of_awake (by simp [Kernel.pid]) (by simp [Kernel.parent]) (stage_running running)
          (by simp [Kernel.stage, running, ProcState.stage]) (by simp [running])
      · exact same_of_eq (by simp [modify_proc_ne, ne]) rfl
    unfold resume
    dsimp only
    cases returns : k.resume p with
    | forkret | yield => exact .quiet (same_of_tab rfl rfl) rfl rfl (by simp [reaped, at_, returns])
    | sleep => exact .quiet (fun r => (awake r).release c _) rfl rfl (by simp [reaped, at_, returns])
    | wait | waitStat =>
      refine waitBody_change running (fun r ne => by simp [modify_proc_ne, ne]) ?_ ?_ ?_ rfl rfl (fun _ => rfl)
        (fun _ => rfl) (fun _ => rfl) rfl (by simp [reaped, at_, returns])
      · simp
      · simp [Kernel.pid]
      · simp [Kernel.parent]
  | @yield c p free at_ =>
    refine .quiet (leave_same (inv.run c p at_) ?_ ?_ ?_ ?_ (.inl rfl)) rfl rfl rfl
    · intro r ne
      obtain ⟨pid, parent, chan⟩ := Awakens.makeRunnable_fields b k.tab p r
      exact ⟨by rw [makeRunnable_state, if_neg ne], pid, parent, chan⟩
    · rw [makeRunnable_state, if_pos rfl]
      rfl
    · exact (Awakens.makeRunnable_fields b k.tab p p).1
    · exact (Awakens.makeRunnable_fields b k.tab p p).2.1
  | @sleep c chan p free current =>
    refine .quiet (leave_same (inv.run c p (current_run current)) (modify_others k.tab p _) ?_ ?_ ?_ (.inr rfl)) rfl rfl rfl
    · simp [ProcState.stage]
    · simp
    · simp
  | wakeup => exact .quiet (awakens (.wakeup1 _ k.tab)) rfl rfl rfl
  | kill => exact .quiet (awakens (.kill k.tab _)) rfl rfl rfl
  | sigsend => exact .quiet (awakens (.sigsend k.tab _ _)) rfl rfl rfl
  | exit _ notInit current =>
    exact exit_change (inv.run _ _ (current_run current)) notInit (by simp [exited, current]) rfl current
  | wait _ current | waitStat _ current =>
    exact waitBody_change (inv.run _ _ (current_run current)) (fun _ _ => rfl) rfl rfl rfl rfl rfl (fun _ => rfl)
      (fun _ => rfl) (fun _ => rfl) rfl (by simp [reaped, current])
  | allocproc => exact allocproc_change _ rfl rfl
  | @forkFail c p q new =>
    refine .abandon q (by rw [Kernel.stage, inv.child p q new]; rfl) ?_ ?_ ?_ rfl rfl rfl (by simp [Kernel.pid])
    · simp [Kernel.stage, ProcState.stage]
    · simp [Kernel.parent]
    · exact fun r ne => same_of_eq (by simp [modify_proc_ne, ne]) rfl
  | forkDone at_ new =>
    exact forkDone_change (inv.run _ _ at_) (inv.child _ _ new) rfl rfl (by simp [forked, at_, new])
  | tick => exact .quiet (same_of_awakens ((Awakens.wakeup1 .ticks k.tab).trans (.advanceprocstats _)) rfl) rfl rfl rfl
  | advanceprocstats => exact .quiet (awakens (.advanceprocstats k.tab)) rfl rfl rfl
  | priority => exact .quiet (awakens (.modify k.tab _ _ rfl rfl rfl rfl)) rfl rfl rfl

end Xv6.Sched
