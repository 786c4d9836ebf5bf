import Xv6.Sched.Accounting

/-!
# The quantum of a process

On a machine with one CPU a timer interrupt counts the tick and then looks at
the quantum counter of the process it has interrupted. The handler runs with
interrupts off, so it is one step here: the tick, the check for a killed
process, and either the forced `yield` or the increment. Everything else a
kernel does between two interrupts is a step of its own, as before.

`runQuanta` is compared, overwritten and incremented in `trap`, and `rutime` is
advanced by the accounting; that the two agree between interrupts is what makes
a quantum a number of ticks.
-/

namespace Xv6.Sched

open Xv6.Lib

/-- `QUANTA`. -/
def QUANTA : Nat := 5

/-- A timer interrupt, which finds the CPU in user mode or in the kernel, or another step. -/
inductive Turn where
  | timer (user : Bool)
  | other (e : Event 1)
  deriving DecidableEq, Repr

/-- The end of `trap` for a timer interrupt of process `p`. -/
def endTimer (b : Build) (k : Kernel 1) (p : Slot) (user : Bool) : Option (Kernel 1) :=
  if (k.tab.proc p).killed ∧ user then step b k (.exit 0)
  else if (k.tab.proc p).state = .running then
    if (k.tab.proc p).runQuanta.tmod QUANTA = 0 ∧ b ≠ .fcfs then
      step b { k with tab := k.tab.modify p fun r => { r with runQuanta := r.rutime } } (.yield 0)
    else some { k with tab := k.tab.modify p fun r => { r with runQuanta := r.runQuanta + 1 } }
  else some k

/-- `trap` for a timer interrupt. -/
def timer (b : Build) (k : Kernel 1) (user : Bool) : Option (Kernel 1) :=
  (step b k (.tick 0)).bind fun k => match k.cpu 0 with
    | .run p => endTimer b k p user
    | _ => some k

/-- The kernel with one CPU. Ticks and yields happen in a timer interrupt only. -/
def turn (b : Build) (k : Kernel 1) : Turn → Option (Kernel 1)
  | .timer user => timer b k user
  | .other (.tick _) => none
  | .other (.yield _) => none
  | .other e => step b k e

/-- A timer interrupt that finds `p` `RUNNING`. -/
def ticks (p : Slot) : Kernel 1 × Turn → Bool
  | (k, .timer _) => (k.tab.proc p).state = .running
  | _ => false

/-- A timer interrupt that takes the CPU from `p` and leaves it `RUNNABLE`. -/
def forced (b : Build) (p : Slot) : Kernel 1 × Turn → Bool
  | (k, .timer user) => (timer b k user).any fun k' => k'.cpu 0 = .switchFrom p ∧ (k'.tab.proc p).state = .runnable
  | _ => false

/-- The process that the step starts. -/
def started (q : Kernel 1 × Turn) : Option Slot :=
  match q.2 with
  | .other e => forked q.1 e
  | .timer _ => none

/-! ## Running processes are on a CPU -/

section
variable {ncpu : Nat} {b : Build} {k k' : Kernel ncpu} {e : Event ncpu} {c : Fin ncpu} {p q me : Slot} {t t' t'' : Table}

/-- No process starts to run, and none is killed. -/
structure Calm (t t' : Table) : Prop where
  state : ∀ q, (t'.proc q).state = .running → (t.proc q).state = .running
  killed : ∀ q, (t.proc q).killed = false → (t'.proc q).killed = false

namespace Calm

theorem refl (t : Table) : Calm t t := ⟨fun _ => id, fun _ => id⟩

theorem trans (first : Calm t t') (second : Calm t' t'') : Calm t t'' :=
  ⟨fun q => first.state q ∘ second.state q, fun q => second.killed q ∘ first.killed q⟩

theorem of_eq (state : ∀ q, (t'.proc q).state = (t.proc q).state) (killed : ∀ q, (t'.proc q).killed = (t.proc q).killed) :
    Calm t t' :=
  ⟨fun q running => (state q).symm.trans running, fun q alive => (killed q).trans alive⟩

theorem modify (t : Table) (p : Slot) (g : Proc → Proc) (state : (g (t.proc p)).state = .running → (t.proc p).state = .running)
    (killed : (t.proc p).killed = false → (g (t.proc p)).killed = false) : Calm t (t.modify p g) := by
  constructor
  · intro q running
    rcases eq_or_ne q p with rfl | ne
    · exact state (by rwa [modify_proc_self] at running)
    · rwa [modify_proc_ne t p g ne] at running
  · intro q alive
    rcases eq_or_ne q p with rfl | ne
    · rw [modify_proc_self]
      exact killed alive
    · rwa [modify_proc_ne t p g ne]

theorem makeRunnable (b : Build) (t : Table) (p : Slot) : Calm t (makeRunnable b t p) := by
  constructor
  · intro q running
    rw [makeRunnable_state] at running
    split_ifs at running
    exact running
  · intro q alive
    rwa [Awakens.makeRunnable_data b t p q Proc.killed (fun _ _ => rfl) (fun _ _ => rfl) fun _ _ => rfl]

theorem foldl {f : Table → Slot → Table} (each : ∀ t p, Calm t (f t p)) (ps : List Slot) (t : Table) :
    Calm t (ps.foldl f t) := by
  induction ps generalizing t with
  | nil => exact refl t
  | cons p ps ih => exact (each t p).trans (ih _)

theorem wakeup1 (b : Build) (chan : Chan) (t : Table) : Calm t (wakeup1 b chan t) := by
  refine foldl (fun t p => ?_) slots t
  split_ifs
  · exact makeRunnable b t p
  · exact refl t

theorem reparent (b : Build) (me init : Slot) (t : Table) : Calm t (reparent b me init t) := by
  refine foldl (fun t p => ?_) slots t
  have moved : Calm t (t.modify p fun r => { r with parent := some init }) := modify t p _ id id
  dsimp only
  split_ifs
  · exact moved.trans (wakeup1 b _ _)
  · exact moved
  · exact refl t

theorem sigsend (t : Table) (pid signum : Int) : Calm t (sigsend t pid signum).1 := by
  unfold Sched.sigsend
  split_ifs
  · exact refl t
  · split
    · rename_i p _
      have marked : Calm t (t.modify p fun r => { r with pending := r.pending ||| (1#32 <<< signum.toNat) }) :=
        modify t p _ id id
      dsimp only
      split_ifs
      · exact marked.trans (modify _ p _ (by simp) id)
      · exact marked
    · exact refl t

theorem advanceprocstats (t : Table) : Calm t (advanceprocstats t) := by
  refine of_eq (fun q => ?_) fun q => ?_
  all_goals
    unfold Sched.advanceprocstats
    dsimp only
    split <;> rfl

theorem deliver {total : Int} (done : deliverTicketsToFIFOProcs b t = some (t', total)) : Calm t t' :=
  of_eq (deliver_blind (f := Proc.state) ⟨fun _ _ => rfl, fun _ _ => rfl, fun _ _ _ => rfl⟩ done)
    (deliver_blind (f := Proc.killed) ⟨fun _ _ => rfl, fun _ _ => rfl, fun _ _ _ => rfl⟩ done)

theorem remove (t : Table) (p : Slot) : Calm t (removeProcFromRRqueue t p) :=
  of_eq (remove_state t p) fun q => remove_data t p q Proc.killed (fun _ _ => rfl) fun _ _ => rfl

end Calm

/-- Every process that is `RUNNING` is on a CPU, and nobody has been killed. -/
structure Seated (k : Kernel ncpu) : Prop where
  seat : ∀ q, (k.tab.proc q).state = .running → ∃ c, k.cpu c = .run q ∨ k.cpu c = .switchTo q
  spared : ∀ q, (k.tab.proc q).killed = false

namespace Seated

section
variable (seated : Seated k)
include seated

/-- A CPU goes on as `x`: the process on it stays there, or does not run any more. -/
theorem update (calm : Calm k.tab k'.tab) (x : Ctx) (cpu : k'.cpu = Function.update k.cpu c x)
    (here : ∀ q, k.cpu c = .run q ∨ k.cpu c = .switchTo q → (k'.tab.proc q).state = .running →
      x = .run q ∨ x = .switchTo q) :
    Seated k' := by
  refine ⟨fun q running => ?_, fun q => calm.killed q (seated.spared q)⟩
  obtain ⟨c', at_⟩ := seated.seat q (calm.state q running)
  rw [cpu]
  rcases eq_or_ne c' c with rfl | ne
  · exact ⟨c', by rw [Function.update_self]; exact here q at_ running⟩
  · exact ⟨c', by rw [Function.update_of_ne ne]; exact at_⟩

theorem calm (calm : Calm k.tab k'.tab) (cpu : k'.cpu = k.cpu) : Seated k' := by
  refine ⟨fun q running => ?_, fun q => calm.killed q (seated.spared q)⟩
  rw [cpu]
  exact seated.seat q (calm.state q running)

/-- The process `p` on CPU `c` runs on. -/
theorem stay (calm : Calm k.tab k'.tab) (current : k.cpu c = .run p ∨ k.cpu c = .switchTo p)
    (cpu : k'.cpu = Function.update k.cpu c (.run p)) : Seated k' := by
  refine seated.update calm (.run p) cpu fun q at_ _ => .inl ?_
  rcases current with here | here <;> rw [here] at at_ <;> rcases at_ with h | h <;> cases h <;> rfl

/-- The process `p` on CPU `c` calls `sched`. -/
theorem leave (calm : Calm k.tab k'.tab) (current : k.cpu c = .run p ∨ k.cpu c = .switchTo p)
    (cpu : k'.cpu = Function.update k.cpu c (.switchFrom p)) (off : (k'.tab.proc p).state ≠ .running) : Seated k' := by
  refine seated.update calm (.switchFrom p) cpu fun q at_ running => absurd running ?_
  rcases current with here | here <;> rw [here] at at_ <;> rcases at_ with h | h <;> cases h <;> exact off

/-- The scheduler of CPU `c` goes on as `x`. -/
theorem idle (calm : Calm k.tab k'.tab) (x : Ctx) (cpu : k'.cpu = Function.update k.cpu c x)
    (alone : ∀ q, k.cpu c ≠ .run q ∧ k.cpu c ≠ .switchTo q) : Seated k' :=
  seated.update calm x cpu fun q at_ _ => absurd at_ (not_or.2 (alone q))

/-- The scheduler of CPU `c` switches to `p`. -/
theorem dispatch {t : Table} (calm : Calm k.tab t)
    (tab : k'.tab = t.modify p fun r => { r with state := .running }) (cpu : k'.cpu = Function.update k.cpu c (.switchTo p))
    (alone : ∀ q, k.cpu c ≠ .run q ∧ k.cpu c ≠ .switchTo q) : Seated k' := by
  have before : Seated { k with tab := t } := seated.calm calm rfl
  refine ⟨fun q running => ?_, fun q => ?_⟩
  · rw [tab] at running
    rw [cpu]
    rcases eq_or_ne q p with rfl | ne
    · exact ⟨c, .inr (by simp)⟩
    · rw [modify_proc_ne t p _ ne] at running
      obtain ⟨c', at_⟩ := before.seat q running
      have other : c' ≠ c := by
        rintro rfl
        exact absurd at_ (not_or.2 (alone q))
      exact ⟨c', by rw [Function.update_of_ne other]; exact at_⟩
  · rw [tab, modify_data t p q Proc.killed (fun r => { r with state := .running }) rfl]
    exact before.spared q

theorem waitBody (current : k.cpu c = .run me ∨ k.cpu c = .switchTo me) {clear : Proc → Proc} (r : Resume)
    (unused : ∀ q, (clear q).state = .unused) (spared : ∀ q, (clear q).killed = false) :
    Seated (waitBody k c me clear r) := by
  unfold Sched.waitBody
  split
  · exact seated.stay (.modify k.tab _ clear (by simp [unused]) fun _ => spared _) current rfl
  · split_ifs
    · exact seated.stay (.refl _) current rfl
    · exact seated.leave (.modify k.tab me (fun q => { q with chan := .proc me, state := .sleeping }) (by simp) id) current
        rfl (by simp [Kernel.enterSched, Kernel.setCpu])

end

end Seated

section
variable (seated : Seated k)
include seated

theorem schedule_seated (idle : k.cpu c = .sched) (taken : schedule b k c = some k') : Seated k' := by
  unfold schedule at taken
  simp only [Option.bind_eq_bind, Option.bind_eq_some_iff, Prod.exists] at taken
  obtain ⟨t, total, delivered, picked, g, _, rest⟩ := taken
  cases picked with
  | none =>
    cases rest
    exact seated.calm (.deliver delivered) rfl
  | some q =>
    cases rest
    exact seated.dispatch ((Calm.deliver delivered).trans (.remove t q)) rfl rfl (by simp [idle])

theorem scan_seated {i : Nat} (idle : k.cpu c = .scan i) : Seated (scan k c i) := by
  unfold scan
  split
  · dsimp only
    split
    · exact seated.idle (.refl _) _ rfl (by simp [idle])
    · exact seated.dispatch (.refl _) rfl rfl (by simp [idle])
  · exact seated.idle (.refl _) _ rfl (by simp [idle])

theorem resume_seated (current : k.cpu c = .switchTo p) : Seated (resume k c p) := by
  have calm : Calm k.tab (k.tab.modify p fun q => { q with chan := .null }) := .modify k.tab p _ id id
  have awake : Seated { k with tab := k.tab.modify p fun q => { q with chan := .null } } := seated.calm calm rfl
  unfold resume
  dsimp only
  cases k.resume p with
  | forkret | yield => exact seated.stay (.refl _) (.inr current) rfl
  | sleep => exact seated.stay calm (.inr current) rfl
  | wait => exact awake.waitBody (.inr current) _ (fun _ => rfl) fun _ => rfl
  | waitStat => exact awake.waitBody (.inr current) _ (fun _ => rfl) fun _ => rfl

theorem allocproc_seated (p : Slot) : Seated (allocproc k p) := by
  unfold allocproc
  split
  · exact seated
  · rename_i q _
    exact seated.calm (.modify k.tab q (fun r => { r with state := .embryo, pid := k.nextpid, ctime := k.ticks }) (by simp) id)
      rfl

theorem exit_seated (current : k.cpu c = .run p) : Seated (exit b k c p) := by
  have calm : Calm k.tab (reparent b p k.initproc (wakeup1 b (.ofProc (k.tab.proc p).parent) k.tab)) :=
    (Calm.wakeup1 b _ _).trans (.reparent b _ _ _)
  exact seated.leave (calm.trans (.modify _ p (fun q => { q with state := .zombie, ttime := k.ticks }) (by simp) id))
    (.inl current) rfl (by simp [exit, Kernel.enterSched, Kernel.setCpu])

/-- **A step without a `kill` keeps the running processes on their CPUs.** -/
theorem step_seated (noKill : ∀ c pid, e ≠ .kill c pid) (taken : step b k e = some k') :
    Seated k' := by
  cases step_cases taken with
  | schedule _ idle round => exact schedule_seated seated idle round
  | rescan _ at_ | back at_ | backScan at_ => exact seated.idle (.refl _) _ rfl (by simp [at_])
  | scan at_ => exact scan_seated seated at_
  | resume at_ => exact resume_seated seated at_
  | @yield c p _ at_ =>
    refine seated.leave (.makeRunnable b k.tab p) (.inl at_) rfl ?_
    simp [Kernel.enterSched, Kernel.setCpu, makeRunnable_state]
  | @sleep c chan p _ current =>
    exact seated.leave (.modify k.tab p (fun q => { q with chan := chan, state := .sleeping }) (by simp) id)
      (.inl (current_run current)) rfl (by simp [Kernel.enterSched, Kernel.setCpu])
  | wakeup => exact seated.calm (.wakeup1 b _ k.tab) rfl
  | kill => exact absurd rfl (noKill _ _)
  | sigsend => exact seated.calm (.sigsend k.tab _ _) rfl
  | exit _ _ current => exact exit_seated seated (current_run current)
  | wait _ current | waitStat _ current =>
    exact seated.waitBody (.inl (current_run current)) _ (fun _ => rfl) fun _ => rfl
  | allocproc => exact allocproc_seated seated _
  | @forkFail c p q _ => exact seated.calm (.modify k.tab q (fun q => { q with state := .unused }) (by simp) id) rfl
  | @forkDone c p q _ _ => exact seated.calm (.trans (.modify k.tab q _ id id) (.makeRunnable b _ q)) rfl
  | tick => exact seated.calm ((Calm.wakeup1 b .ticks k.tab).trans (.advanceprocstats _)) rfl
  | advanceprocstats => exact seated.calm (.advanceprocstats k.tab) rfl
  | @priority c n p => exact seated.calm (.modify k.tab p (fun q => { q with priority := n }) id id) rfl

end

theorem boot_seated (b : Build) (ncpu : Nat) : Seated (boot b ncpu) := by
  have idle (q : Slot) : ((boot b ncpu).tab.proc q).state ≠ .running ∧ ((boot b ncpu).tab.proc q).killed = false := by
    refine ⟨?_, ?_⟩
    · intro running
      have before := (Calm.makeRunnable b _ _).state q running
      rw [modify_data Table.zero 0 q Proc.state (fun q => { q with pid := 1 }) rfl] at before
      cases before
    · refine (Calm.makeRunnable b _ _).killed q ?_
      rw [modify_data Table.zero 0 q Proc.killed (fun q => { q with pid := 1 }) rfl]
      rfl
  exact ⟨fun q running => absurd running (idle q).1, fun q => (idle q).2⟩

end

/-! ## One step -/

variable {b : Build} {k k' k1 : Kernel 1} {e : Turn} {p q : Slot} {user : Bool} {tr : List (Kernel 1 × Turn)}

/-- The state between timer interrupts. -/
structure Law (b : Build) (k : Kernel 1) : Prop where
  inv : Inv b False k
  seated : Seated k
  quanta : ∀ p, k.stage p = .alive → (k.tab.proc p).runQuanta = (k.tab.proc p).rutime

/-- While the lock is free, the `RUNNING` process is the one on the CPU. -/
theorem Law.running_iff (law : Law b k) (free : k.lock = none) : (k.tab.proc p).state = .running ↔ k.cpu 0 = .run p := by
  refine ⟨fun running => ?_, fun at_ => law.inv.run 0 p at_⟩
  obtain ⟨c, at_ | at_⟩ := law.seated.seat p running
  · rwa [Subsingleton.elim c 0] at at_
  · have held := (law.inv.switchTo c p at_).2
    rw [free] at held
    cases held

theorem Law.running_iff_eq (law : Law b k) (free : k.lock = none) (at_ : k.cpu 0 = .run p) :
    (k.tab.proc q).state = .running ↔ q = p := by
  rw [law.running_iff free, at_, Ctx.run.injEq, eq_comm]

/-- What the first half of a timer interrupt does. -/
structure Ticked (k k1 : Kernel 1) : Prop where
  free : k.lock = none ∧ k1.lock = none
  cpu : k1.cpu = k.cpu
  stage : ∀ p, k1.stage p = k.stage p
  quanta : ∀ p, k.stage p = .alive → (k1.tab.proc p).runQuanta = (k.tab.proc p).runQuanta
  rutime : ∀ p, k.stage p = .alive →
    (k1.tab.proc p).rutime = (k.tab.proc p).rutime + if (k.tab.proc p).state = .running then 1 else 0

theorem tick_ticked (taken : step b k (.tick 0) = some k1) : Ticked k k1 := by
  have after := taken
  simp only [step] at taken
  split_ifs at taken with enabled
  cases taken
  have woken : WakesOnly k.tab (wakeup1 b .ticks k.tab) := (Awakens.wakeup1 .ticks k.tab).states
  have stages := stage_of_states ((Awakens.wakeup1 (b := b) .ticks k.tab).trans (.advanceprocstats _)).states
  have finds (p : Slot) : tickState b k p (.tick 0) = some .running ↔ (k.tab.proc p).state = .running := by
    rw [tickState, Option.some.injEq]
    rcases woken p with same | ⟨asleep, awake⟩
    · rw [same]
    · rw [asleep, awake]
      simp
  have books (p : Slot) (alive : k.stage p = .alive) := (step_books after (by simp) (.inl ((stages p).trans alive))).1
  refine ⟨⟨enabled.1.1, enabled.1.1⟩, rfl, stages, fun p alive => congrArg Prod.snd (books p alive), fun p alive => ?_⟩
  have rutime := congrArg Perf.rutime (congrArg Prod.fst (books p alive))
  refine rutime.trans ((ledger_fields (b := b) (e := .tick 0) (by simp [forked])).1.trans ?_)
  simp only [finds]
  rfl

/-- Writing the quantum counter changes nothing else. -/
def Kernel.setQuanta (k : Kernel 1) (p : Slot) (g : Proc → Int) : Kernel 1 :=
  { k with tab := k.tab.modify p fun r => { r with runQuanta := g r } }

theorem setQuanta_inv (inv : Inv b False k) (g : Proc → Int) : Inv b False (k.setQuanta p g) := by
  have wakes : Wakes b k.tab (k.tab.modify p fun r => { r with runQuanta := g r }) := .modify k.tab p _ rfl rfl rfl
  exact inv.wakes (by simp) wakes

theorem setQuanta_seated (seated : Seated k) (g : Proc → Int) : Seated (k.setQuanta p g) :=
  seated.calm (.modify k.tab p (fun r => { r with runQuanta := g r }) id id) rfl

theorem setQuanta_data {β : Type} (f : Proc → β) (blind : ∀ r n, f { r with runQuanta := n } = f r) (g : Proc → Int)
    (q : Slot) : f ((k.setQuanta p g).tab.proc q) = f (k.tab.proc q) :=
  modify_data k.tab p q f (fun r => { r with runQuanta := g r }) (blind _ _)

theorem setQuanta_quanta (g : Proc → Int) (q : Slot) :
    ((k.setQuanta p g).tab.proc q).runQuanta = if q = p then g (k.tab.proc p) else (k.tab.proc q).runQuanta := by
  rw [Kernel.setQuanta, modify_proc]
  split_ifs <;> rfl

/-- What a forced `yield` does. -/
theorem yield_eq (current : k.cpu 0 = .run p) (taken : step b k (.yield 0) = some k') :
    k' = { k with tab := makeRunnable b k.tab p }.enterSched 0 p .yield := by
  simp only [step, current] at taken
  split_ifs at taken
  exact (Option.some.inj taken).symm

/-- The three ways a timer interrupt ends when nobody has been killed. -/
theorem timer_cases (law : Law b k) (taken : timer b k user = some k') : ∃ k1, step b k (.tick 0) = some k1 ∧
    ((∀ p, k.cpu 0 ≠ .run p) ∧ k' = k1 ∨
      ∃ p, k.cpu 0 = .run p ∧
        ((QUANTA : Int) ∣ (k1.tab.proc p).runQuanta ∧ b ≠ .fcfs ∧
            step b (k1.setQuanta p Proc.rutime) (.yield 0) = some k' ∨
          ¬ ((QUANTA : Int) ∣ (k1.tab.proc p).runQuanta ∧ b ≠ .fcfs) ∧
            k' = k1.setQuanta p fun r => r.runQuanta + 1)) := by
  obtain ⟨k1, tick, rest⟩ := Option.bind_eq_some_iff.1 taken
  have ticked := tick_ticked tick
  refine ⟨k1, tick, ?_⟩
  rw [ticked.cpu] at rest
  split at rest
  · rename_i p at_
    refine .inr ⟨p, at_, ?_⟩
    have spared := (step_seated law.seated (by simp) tick).spared p
    have running : (k1.tab.proc p).state = .running :=
      (step_good (by simp) law.inv (by simp) tick).run 0 p (by rw [ticked.cpu]; exact at_)
    rw [endTimer, if_neg (by simp [spared]), if_pos running] at rest
    rw [Int.dvd_iff_tmod_eq_zero]
    split_ifs at rest with due
    · exact .inl ⟨due.1, due.2, rest⟩
    · exact .inr ⟨due, (Option.some.inj rest).symm⟩
  · rename_i idle
    exact .inl ⟨idle, (Option.some.inj rest).symm⟩

/-- What a timer interrupt does. -/
structure TimerSpec (b : Build) (k k' : Kernel 1) : Prop where
  law : Law b k'
  stage : ∀ p, k'.stage p = k.stage p
  rutime : ∀ p, k.stage p = .alive →
    (k'.tab.proc p).rutime = (k.tab.proc p).rutime + if (k.tab.proc p).state = .running then 1 else 0
  forced : ∀ p, k'.cpu 0 = .switchFrom p ∧ (k'.tab.proc p).state = .runnable ↔
    (k.tab.proc p).state = .running ∧ b ≠ .fcfs ∧ (k'.tab.proc p).rutime % QUANTA = 1

/-- `QUANTA` divides a number exactly when the next one is congruent to 1. -/
theorem dvd_iff_succ_emod (n : Int) : (QUANTA : Int) ∣ n ↔ (n + 1) % QUANTA = 1 := by
  unfold QUANTA
  omega

/-- What the quantum check of `trap` tests. -/
theorem due_iff (law : Law b k) (tick : step b k (.tick 0) = some k1) (at_ : k.cpu 0 = .run p) :
    (QUANTA : Int) ∣ (k1.tab.proc p).runQuanta ↔ (k1.tab.proc p).rutime % QUANTA = 1 := by
  have ticked := tick_ticked tick
  have running := law.inv.run 0 p at_
  have alive : k.stage p = .alive := stage_running running
  rw [ticked.quanta p alive, ticked.rutime p alive, if_pos running, law.quanta p alive]
  exact dvd_iff_succ_emod _

/-- The process that was not running has its two counters as before. -/
theorem Ticked.idle (ticked : Ticked k k1) (law : Law b k) (alive : k.stage p = .alive)
    (off : (k.tab.proc p).state ≠ .running) : (k1.tab.proc p).runQuanta = (k1.tab.proc p).rutime := by
  rw [ticked.quanta p alive, ticked.rutime p alive, if_neg off, law.quanta p alive, add_zero]

/-- The scheduler was interrupted. -/
theorem timer_idle (law : Law b k) (tick : step b k (.tick 0) = some k1) (idle : ∀ p, k.cpu 0 ≠ .run p) :
    TimerSpec b k k1 := by
  have ticked := tick_ticked tick
  have inv := step_good (by simp) law.inv (by simp) tick
  have nobody (p : Slot) : (k.tab.proc p).state ≠ .running := by
    rw [Ne, law.running_iff ticked.free.1]
    exact idle p
  refine ⟨⟨inv, step_seated law.seated (by simp) tick, fun p alive => ?_⟩, ticked.stage, ticked.rutime, fun p => ?_⟩
  · exact ticked.idle law ((ticked.stage p).symm.trans alive) (nobody p)
  · refine ⟨?_, fun forces => absurd forces.1 (nobody p)⟩
    rintro ⟨left, _⟩
    have held := inv.switchFrom 0 p left
    rw [ticked.free.2] at held
    cases held

/-- The quantum is over. -/
theorem timer_yields (law : Law b k) (tick : step b k (.tick 0) = some k1) (at_ : k.cpu 0 = .run p)
    (due : (QUANTA : Int) ∣ (k1.tab.proc p).runQuanta) (notFcfs : b ≠ .fcfs)
    (yields : step b (k1.setQuanta p Proc.rutime) (.yield 0) = some k') : TimerSpec b k k' := by
  have ticked := tick_ticked tick
  have inv := setQuanta_inv (p := p) (step_good (by simp) law.inv (by simp) tick) Proc.rutime
  have seated := setQuanta_seated (p := p) (step_seated law.seated (by simp) tick) Proc.rutime
  have running (q : Slot) := law.running_iff_eq (q := q) ticked.free.1 at_
  have here : (k1.setQuanta p Proc.rutime).cpu 0 = .run p := by
    rw [← at_, ← ticked.cpu]
    rfl
  have eq := yield_eq here yields
  have books (q : Slot) : (k'.tab.proc q).books = ((k1.setQuanta p Proc.rutime).tab.proc q).books := by
    rw [eq]
    exact makeRunnable_books _
  have rutime (q : Slot) : (k'.tab.proc q).rutime = (k1.tab.proc q).rutime :=
    (congrArg (fun f : Perf × Int => f.1.rutime) (books q)).trans (setQuanta_data Proc.rutime (fun _ _ => rfl) _ q)
  have state (q : Slot) : (k'.tab.proc q).state = if q = p then .runnable else (k1.tab.proc q).state := by
    rw [eq]
    refine (makeRunnable_state b _ p q).trans ?_
    rw [setQuanta_data Proc.state (fun _ _ => rfl) _ q]
  have stage (q : Slot) : k'.stage q = k.stage q := by
    rw [← ticked.stage q, Kernel.stage, state]
    split_ifs with same
    · rw [same, ticked.stage, stage_running ((running p).2 rfl)]
      rfl
    · rfl
  refine ⟨⟨step_good (by simp) inv (by simp) yields, step_seated seated (by simp) yields, fun q alive => ?_⟩, stage,
    fun q alive => (rutime q).trans (ticked.rutime q alive), fun q => ?_⟩
  · refine (congrArg Prod.snd (books q)).trans ((setQuanta_quanta Proc.rutime q).trans ?_)
    rw [rutime q]
    split_ifs with same
    · rw [same]
    · exact ticked.idle law ((stage q).symm.trans alive) fun runs => same ((running q).1 runs)
  · have cpu : k'.cpu 0 = .switchFrom p := by
      rw [eq]
      simp [Kernel.enterSched, Kernel.setCpu]
    rw [cpu, running q, Ctx.switchFrom.injEq]
    constructor
    · rintro ⟨rfl, _⟩
      exact ⟨rfl, notFcfs, by rw [rutime]; exact (due_iff law tick at_).1 due⟩
    · rintro ⟨rfl, _⟩
      exact ⟨rfl, (state q).trans (if_pos rfl)⟩

/-- The quantum goes on. -/
theorem timer_counts (law : Law b k) (tick : step b k (.tick 0) = some k1) (at_ : k.cpu 0 = .run p)
    (notDue : ¬ ((QUANTA : Int) ∣ (k1.tab.proc p).runQuanta ∧ b ≠ .fcfs)) :
    TimerSpec b k (k1.setQuanta p fun r => r.runQuanta + 1) := by
  have ticked := tick_ticked tick
  have inv := step_good (by simp) law.inv (by simp) tick
  have seated := step_seated law.seated (by simp) tick
  have running (q : Slot) := law.running_iff_eq (q := q) ticked.free.1 at_
  have rutime (q : Slot) : ((k1.setQuanta p fun r => r.runQuanta + 1).tab.proc q).rutime = (k1.tab.proc q).rutime :=
    setQuanta_data Proc.rutime (fun _ _ => rfl) _ q
  have stage (q : Slot) : (k1.setQuanta p fun r => r.runQuanta + 1).stage q = k.stage q := by
    rw [← ticked.stage q, Kernel.stage, setQuanta_data Proc.state (fun _ _ => rfl) _ q]
    rfl
  refine ⟨⟨setQuanta_inv inv _, setQuanta_seated seated _, fun q live => ?_⟩, stage,
    fun q live => (rutime q).trans (ticked.rutime q live), fun q => ?_⟩
  · have before : k.stage q = .alive := (stage q).symm.trans live
    rw [setQuanta_quanta, rutime q]
    split_ifs with same
    · rw [← same, ticked.quanta q before, ticked.rutime q before, if_pos ((running q).2 same), law.quanta q before]
    · exact ticked.idle law before fun runs => same ((running q).1 runs)
  · have cpu : (k1.setQuanta p fun r => r.runQuanta + 1).cpu 0 = .run p := by
      rw [← at_, ← ticked.cpu]
      rfl
    rw [cpu, running q]
    constructor
    · rintro ⟨left, _⟩
      cases left
    · rintro ⟨rfl, notFcfs, turned⟩
      rw [rutime] at turned
      exact absurd ⟨(due_iff law tick at_).2 turned, notFcfs⟩ notDue

theorem timer_spec (law : Law b k) (taken : timer b k user = some k') : TimerSpec b k k' := by
  obtain ⟨k1, tick, ⟨idle, rfl⟩ | ⟨p, at_, ⟨due, notFcfs, yields⟩ | ⟨notDue, rfl⟩⟩⟩ := timer_cases law taken
  · exact timer_idle law tick idle
  · exact timer_yields law tick at_ due notFcfs yields
  · exact timer_counts law tick at_ notDue

/-- A step of the kernel outside timer interrupts leaves the two counters of a process alone; `fork` resets both. -/
theorem other_spec {e : Event 1} (law : Law b k) (noKill : ∀ c pid, e ≠ .kill c pid) (noCall : ∀ c, e ≠ .advanceprocstats c)
    (noTick : ∀ p, tickState b k p e = none) (taken : step b k e = some k') :
    Law b k' ∧ ∀ p, k'.stage p = .alive → forked k e ≠ some p →
      k.stage p = .alive ∧ (k'.tab.proc p).rutime = (k.tab.proc p).rutime := by
  have change := step_change law.inv taken
  have books (p : Slot) (alive : k'.stage p = .alive) := (step_books taken noCall (.inl alive)).1
  have rutime (p : Slot) (alive : k'.stage p = .alive) : (k'.tab.proc p).rutime = (ledger b k e p).rutime :=
    congrArg (fun f : Perf × Int => f.1.rutime) (books p alive)
  have quanta (p : Slot) (alive : k'.stage p = .alive) :
      (k'.tab.proc p).runQuanta = if forked k e = some p then 0 else (k.tab.proc p).runQuanta :=
    congrArg Prod.snd (books p alive)
  have old (p : Slot) (alive : k'.stage p = .alive) (notForked : forked k e ≠ some p) :
      k.stage p = .alive ∧ (k'.tab.proc p).rutime = (k.tab.proc p).rutime := by
    refine ⟨?_, ?_⟩
    · rcases change.started (.inl alive) with ⟨new, _⟩ | ⟨_, same | ⟨_, _, dead⟩⟩
      · exact absurd new notForked
      · exact same.symm.trans alive
      · rw [alive] at dead
        cases dead
    · rw [rutime p alive, (ledger_fields (b := b) notForked).1, noTick]
      simp [Kernel.perf, Proc.perf]
  refine ⟨⟨step_good (by simp) law.inv (by simp) taken, step_seated law.seated noKill taken, fun p alive => ?_⟩, old⟩
  rw [quanta p alive]
  by_cases new : forked k e = some p
  · rw [if_pos new, rutime p alive, ledger, noTick]
    simp [new]
  · rw [if_neg new, (old p alive new).2]
    exact law.quanta p (old p alive new).1

/-- A step of a run in which nobody is killed and nobody calls `advanceprocstats`. -/
def Plain (q : Kernel 1 × Turn) : Prop :=
  (∀ c pid, q.2 ≠ .other (.kill c pid)) ∧ ∀ c, q.2 ≠ .other (.advanceprocstats c)

theorem turn_spec (law : Law b k) (plain : Plain (k, e)) (taken : turn b k e = some k') :
    Law b k' ∧ ∀ p, k'.stage p = .alive → started (k, e) ≠ some p →
      k.stage p = .alive ∧ (k'.tab.proc p).rutime = (k.tab.proc p).rutime + if ticks p (k, e) then 1 else 0 := by
  cases e with
  | timer user =>
    have spec := timer_spec law taken
    refine ⟨spec.law, fun p alive _ => ?_⟩
    have before : k.stage p = .alive := (spec.stage p).symm.trans alive
    refine ⟨before, ?_⟩
    rw [spec.rutime p before]
    simp [ticks]
  | other e =>
    have noKill : ∀ c pid, e ≠ .kill c pid := fun c pid same => plain.1 c pid (congrArg Turn.other same)
    have noCall : ∀ c, e ≠ .advanceprocstats c := fun c same => plain.2 c (congrArg Turn.other same)
    have both : step b k e = some k' ∧ ∀ p, tickState b k p e = none := by
      cases e with
      | tick | yield => cases taken
      | _ => exact ⟨taken, fun _ => rfl⟩
    obtain ⟨after, old⟩ := other_spec law noKill noCall both.2 both.1
    exact ⟨after, fun p alive notForked => by simpa [ticks] using old p alive notForked⟩

/-! ## Whole runs -/

theorem boot_law (b : Build) : Law b (boot b 1) where
  inv := boot_good (by simp)
  seated := boot_seated b 1
  quanta p _ := by
    have books := boot_books b 1 p
    exact (congrArg Prod.snd books).trans (congrArg (fun f : Perf × Int => f.1.rutime) books).symm

theorem run_law {s : Kernel 1} (law : Law b s) (run : Run (turn b) s tr k) (plain : ∀ q ∈ tr, Plain q) : Law b k :=
  run.invariant (fun k e => Plain (k, e)) (Law b) law (fun _ _ _ law plain taken => (turn_spec law plain taken).1) plain

/-- A timer interrupt forces `p` off the CPU exactly when it brings its running time to 1 modulo `QUANTA`. -/
theorem forced_iff (law : Law b k) (taken : timer b k user = some k') :
    forced b p (k, .timer user) = true ↔
      (k.tab.proc p).state = .running ∧ b ≠ .fcfs ∧ (k'.tab.proc p).rutime % QUANTA = 1 := by
  rw [← (timer_spec law taken).forced p]
  simp [forced, taken]

/-- From a forced yield of `p` on, as long as the same process is not forced again, it has run for less than a quantum. -/
theorem run_quiet {s : Kernel 1} (law : Law b s) (notFcfs : b ≠ .fcfs) (full : (s.tab.proc p).rutime % QUANTA = 1)
    (run : Run (turn b) s tr k) (plain : ∀ q ∈ tr, Plain q) (same : ∀ q ∈ tr, started q ≠ some p)
    (quiet : ∀ q ∈ tr, forced b p q = false) (alive : k.stage p = .alive) :
    (k.tab.proc p).rutime = (s.tab.proc p).rutime + tr.countP (ticks p) ∧ tr.countP (ticks p) < QUANTA := by
  induction run with
  | start => simp [QUANTA]
  | @next tr k k' e run taken ih =>
    have earlier {P : Kernel 1 × Turn → Prop} (all : ∀ q ∈ tr ++ [(k, e)], P q) : ∀ q ∈ tr, P q :=
      fun q mem => all q (List.mem_append_left _ mem)
    have here {P : Kernel 1 × Turn → Prop} (all : ∀ q ∈ tr ++ [(k, e)], P q) : P (k, e) := all (k, e) (by simp)
    have lawful := run_law law run (earlier plain)
    obtain ⟨before, rutime⟩ := (turn_spec lawful (here plain) taken).2 p alive (here same)
    obtain ⟨counted, bound⟩ := ih (earlier plain) (earlier same) (earlier quiet) before
    rw [List.countP_append, List.countP_singleton, rutime, counted]
    cases found : ticks p (k, e) with
    | false => simpa using bound
    | true =>
      refine ⟨by push_cast; simp [add_assoc], ?_⟩
      -- a tick that completes the quantum would have been forced
      cases e with
      | other e => cases found
      | timer user =>
        have running : (k.tab.proc p).state = .running := by simpa [ticks] using found
        have notForced : ¬ forced b p (k, .timer user) = true := by simp [here quiet]
        rw [forced_iff lawful taken, rutime, counted, found] at notForced
        have rest : ¬ ((s.tab.proc p).rutime + tr.countP (ticks p) + 1) % (QUANTA : Int) = 1 :=
          fun turned => notForced ⟨running, notFcfs, turned⟩
        have five : QUANTA = 5 := rfl
        rw [five] at rest full bound ⊢
        simp only [if_true]
        omega

/-- **The quantum law.** On one CPU, in every run in which nobody is killed and nobody calls `advanceprocstats`: between
timer interrupts the quantum counter of a live process is its running time; a timer interrupt forces a `RUNNING` process
to yield exactly when it brings its running time to 1 modulo `QUANTA`, and never in the `FCFS` kernel; and from one forced
yield of a process to its next one exactly `QUANTA` ticks find it running, whatever it does in between. -/
theorem quantum_law (b : Build) (run : Run (turn b) (boot b 1) tr k) (noKill : ∀ q ∈ tr, ∀ c pid, q.2 ≠ .other (.kill c pid))
    (noCall : ∀ q ∈ tr, ∀ c, q.2 ≠ .other (.advanceprocstats c)) :
    (∀ p, k.stage p = .alive → (k.tab.proc p).runQuanta = (k.tab.proc p).rutime) ∧
    (∀ s user s', (s, .timer user) ∈ tr → turn b s (.timer user) = some s' → ∀ p, (s.tab.proc p).state = .running →
      (s'.tab.proc p).rutime = (s.tab.proc p).rutime + 1 ∧
      (forced b p (s, .timer user) = true ↔ b ≠ .fcfs ∧ (s'.tab.proc p).rutime % QUANTA = 1)) ∧
    (b = .fcfs → ∀ q ∈ tr, ∀ p, forced b p q = false) ∧
    ∀ pre q1 mid q2 post p, tr = pre ++ q1 :: (mid ++ q2 :: post) → forced b p q1 = true → forced b p q2 = true →
      (∀ q ∈ mid, forced b p q = false) → (∀ q ∈ mid, started q ≠ some p) →
      (mid ++ [q2]).countP (ticks p) = QUANTA := by
  have plain : ∀ q ∈ tr, Plain q := fun q mem => ⟨noKill q mem, noCall q mem⟩
  have reached {pre post : List (Kernel 1 × Turn)} {q : Kernel 1 × Turn} (split : tr = pre ++ q :: post) :
      Run (turn b) (boot b 1) pre q.1 ∧ Law b q.1 ∧ ∃ u, turn b q.1 q.2 = some u ∧ Run (turn b) u post k := by
    obtain ⟨first, rest⟩ := (split ▸ run).around
    exact ⟨first, run_law (boot_law b) first fun q' mem => plain q' (by rw [split]; simp [mem]), rest⟩
  refine ⟨(run_law (boot_law b) run plain).quanta, ?_, ?_, ?_⟩
  · intro s user s' mem taken p running
    obtain ⟨pre, post, split⟩ := List.append_of_mem mem
    have law := (reached split).2.1
    rw [forced_iff law taken]
    refine ⟨?_, by simp [running]⟩
    rw [(timer_spec law taken).rutime p (stage_running running), if_pos running]
  · rintro rfl q mem p
    obtain ⟨pre, post, split⟩ := List.append_of_mem mem
    obtain ⟨_, law, u, taken, _⟩ := reached split
    obtain ⟨s, user | e⟩ := q
    · rw [Bool.eq_false_iff, Ne, forced_iff law taken]
      simp
    · rfl
  · intro pre q1 mid q2 post p split forced1 forced2 quiet same
    obtain ⟨s1, user1 | e1⟩ := q1
    swap; · cases forced1
    obtain ⟨s2, user2 | e2⟩ := q2
    swap; · cases forced2
    obtain ⟨_, law1, u, taken1, rest⟩ := reached split
    obtain ⟨between, v, taken2, _⟩ := rest.around
    obtain ⟨running1, notFcfs, full⟩ := (forced_iff law1 taken1).1 forced1
    have spec1 := timer_spec law1 taken1
    have plainMid : ∀ q ∈ mid, Plain q := fun q mem => plain q (by rw [split]; simp [mem])
    have law2 := run_law spec1.law between plainMid
    obtain ⟨running2, _, turned⟩ := (forced_iff law2 taken2).1 forced2
    have alive := stage_running running2
    obtain ⟨counted, bound⟩ := run_quiet spec1.law notFcfs full between plainMid same quiet alive
    have last : ticks p (s2, .timer user2) = true := by simp [ticks, running2]
    rw [(timer_spec law2 taken2).rutime p alive, if_pos running2, counted] at turned
    rw [List.countP_append, List.countP_singleton, last, if_pos rfl]
    have five : QUANTA = 5 := rfl
    rw [five] at full turned bound ⊢
    omega

/-- The first process starts to run. -/
def dispatched : List Turn := [.other (.schedule 0), .other (.resume 0)]

/-- After a forced yield it is interrupted twice, sleeps, wakes up, and is interrupted twice again. -/
def napping : List Turn :=
  [.other (.back 0), .other (.schedule 0), .other (.resume 0), .timer true, .timer true, .other (.sleep 0 .ticks),
    .other (.back 0), .other (.wakeup 0 .ticks), .other (.schedule 0), .other (.resume 0), .timer true, .timer false]

/-- Between the two forced yields it ran for `QUANTA` ticks. -/
theorem quantum_law_napping : ∃ pre s mid t k,
    Run (turn .frr) (boot .frr 1) (pre ++ (s, .timer true) :: (mid ++ [(t, .timer true)])) k ∧
      forced .frr 0 (s, .timer true) = true ∧ forced .frr 0 (t, .timer true) = true ∧
      mid.map Prod.snd = napping ∧ (mid ++ [(t, .timer true)]).countP (ticks 0) = QUANTA := by
  have reached : ((exec (turn .frr) (boot .frr 1) dispatched).bind fun s => (turn .frr s (.timer true)).bind fun u =>
      (exec (turn .frr) u napping).bind fun t => (turn .frr t (.timer true)).map fun _ =>
        decide (forced .frr 0 (s, .timer true) = true ∧ forced .frr 0 (t, .timer true) = true ∧
          ∀ q ∈ record (turn .frr) u napping, forced .frr 0 q = false ∧ started q ≠ some 0)) = some true := by
    decide +kernel
  have plain : ∀ e ∈ dispatched ++ .timer true :: (napping ++ [.timer true]),
      (∀ c pid, e ≠ .other (.kill c pid)) ∧ ∀ c, e ≠ .other (.advanceprocstats c) := by
    simp [dispatched, napping]
  simp only [Option.bind_eq_some_iff, Option.map_eq_some_iff, decide_eq_true_eq] at reached
  obtain ⟨s, first, u, taken, t, rest, k, last, forced1, forced2, quiet⟩ := reached
  have run := ((run_of_exec first).next taken).trans ((run_of_exec rest).next last)
  rw [List.append_assoc, List.singleton_append] at run
  have events : (record (turn .frr) (boot .frr 1) dispatched ++
      (s, Turn.timer true) :: (record (turn .frr) u napping ++ [(t, Turn.timer true)])).map Prod.snd =
      dispatched ++ .timer true :: (napping ++ [.timer true]) := by
    simp only [List.map_append, List.map_cons, List.map_nil, record_events first, record_events rest]
  have mem {q : Kernel 1 × Turn} (inside : q ∈ record (turn .frr) (boot .frr 1) dispatched ++
      (s, .timer true) :: (record (turn .frr) u napping ++ [(t, .timer true)])) :=
    plain q.2 (events ▸ List.mem_map_of_mem (f := Prod.snd) inside)
  refine ⟨_, s, _, t, k, run, forced1, forced2, record_events rest, ?_⟩
  exact (quantum_law .frr run (fun q inside => (mem inside).1) fun q inside => (mem inside).2).2.2.2 _ _ _ _ [] 0 rfl
    forced1 forced2 (fun q inside => (quiet q inside).1) fun q inside => (quiet q inside).2

end Xv6.Sched
