import Xv6.Sched.Reap

/-!
# Time accounting

At every tick `advanceprocstats` adds one to a counter of every process that is
`RUNNING`, `RUNNABLE` or `SLEEPING`. `fork` resets the counters of the slot and
`exit` notes the time, so what `wait_stat` copies out are the numbers of ticks that
fell into the three states since the `fork`, whoever used the slot before.
-/

namespace Xv6.Sched

open Xv6.Lib

variable {ncpu : Nat} {b : Build} {k k' : Kernel ncpu} {e : Event ncpu} {c : Fin ncpu} {p q me : Slot}
  {tr : List (Kernel ncpu × Event ncpu)} {t : Table}

/-- `struct perf`. -/
structure Perf where
  ctime : Int
  ttime : Int
  stime : Int
  retime : Int
  rutime : Int
  deriving DecidableEq, Repr

/-- What `wait_stat` copies of a child. -/
def Proc.perf (r : Proc) : Perf := ⟨r.ctime, r.ttime, r.stime, r.retime, r.rutime⟩

def Kernel.perf (k : Kernel ncpu) (p : Slot) : Perf := (k.tab.proc p).perf

/-- One tick of a process in state `st`. -/
def Perf.advance (f : Perf) : ProcState → Perf
  | .running => { f with rutime := f.rutime + 1 }
  | .runnable => { f with retime := f.retime + 1 }
  | .sleeping => { f with stime := f.stime + 1 }
  | _ => f

theorem advanceprocstats_perf (t : Table) (p : Slot) :
    ((advanceprocstats t).proc p).perf = (t.proc p).perf.advance (t.proc p).state := by
  unfold advanceprocstats
  dsimp only
  cases is : (t.proc p).state <;> rfl

/-! ## What the steps leave alone -/

/-- The record of a process and its quantum counter. -/
def Proc.books (r : Proc) : Perf × Int := (r.perf, r.runQuanta)

def Kernel.books (k : Kernel ncpu) (p : Slot) : Perf × Int := (k.tab.proc p).books

theorem books_of_modify {g : Proc → Proc} (tab : k'.tab = k.tab.modify q g) (blind : ∀ r, (g r).books = r.books) :
    k'.books p = k.books p := by
  rw [Kernel.books, tab]
  exact modify_data k.tab q p Proc.books g (blind _)

theorem books_of_modify_ne {g : Proc → Proc} (tab : k'.tab = k.tab.modify q g) (ne : p ≠ q) : k'.books p = k.books p := by
  rw [Kernel.books, tab, modify_proc_ne k.tab q g ne]
  rfl

theorem advanceprocstats_books (t : Table) (p : Slot) :
    ((advanceprocstats t).proc p).books = ((t.proc p).perf.advance (t.proc p).state, (t.proc p).runQuanta) := by
  refine Prod.ext (advanceprocstats_perf t p) ?_
  unfold advanceprocstats
  dsimp only
  cases is : (t.proc p).state <;> rfl

theorem makeRunnable_books (t : Table) : ((makeRunnable b t p).proc q).books = (t.proc q).books :=
  Awakens.makeRunnable_data b t p q Proc.books (fun _ _ => rfl) (fun _ _ => rfl) fun _ _ => rfl

theorem foldl_books {f : Table → Slot → Table} (each : ∀ t p q, ((f t p).proc q).books = (t.proc q).books) (ps : List Slot)
    (t : Table) : ((ps.foldl f t).proc q).books = (t.proc q).books := by
  induction ps generalizing t with
  | nil => rfl
  | cons p ps ih => exact (ih _).trans (each t p q)

theorem wakeup1_books (chan : Chan) (t : Table) : ((wakeup1 b chan t).proc q).books = (t.proc q).books := by
  refine foldl_books (fun t p q => ?_) slots t
  split_ifs
  · exact makeRunnable_books t
  · rfl

theorem reparent_books (init : Slot) (t : Table) : ((reparent b me init t).proc q).books = (t.proc q).books := by
  refine foldl_books (fun t p q => ?_) slots t
  have moved : ((t.modify p fun r => { r with parent := some init }).proc q).books = (t.proc q).books :=
    modify_data t p q Proc.books _ rfl
  dsimp only
  split_ifs
  · exact (wakeup1_books _ _).trans moved
  · exact moved
  · rfl

theorem kill_books (t : Table) (pid : Int) : ((kill b t pid).1.proc q).books = (t.proc q).books := by
  unfold kill
  split
  · rename_i p _
    have flagged : ((t.modify p fun r => { r with killed := true }).proc q).books = (t.proc q).books :=
      modify_data t p q Proc.books _ rfl
    dsimp only
    split_ifs
    · exact (makeRunnable_books _).trans flagged
    · exact flagged
  · rfl

theorem sigsend_books (t : Table) (pid signum : Int) : ((sigsend t pid signum).1.proc q).books = (t.proc q).books := by
  unfold sigsend
  split_ifs
  · rfl
  · split
    · rename_i p _
      have flagged : ((t.modify p fun r => { r with pending := r.pending ||| (1#32 <<< signum.toNat) }).proc q).books =
          (t.proc q).books := modify_data t p q Proc.books _ rfl
      dsimp only
      split_ifs
      · exact (modify_data _ p q Proc.books _ rfl).trans flagged
      · exact flagged
    · rfl

theorem schedule_books (taken : schedule b k c = some k') : k'.books p = k.books p ∧ k'.ticks = k.ticks :=
  schedule_data (f := Proc.books) ⟨fun _ _ => rfl, fun _ _ => rfl, fun _ _ _ => rfl⟩ (fun _ _ => rfl) taken p

/-- A round of `wait` or `wait_stat` writes to the record of the child that it reaps, and of nobody else. -/
theorem waitBody_books {clear : Proc → Proc} {r : Resume} (unused : ∀ q, (clear q).state = .unused)
    (started : (waitBody k c me clear r).Started p) :
    (waitBody k c me clear r).books p = k.books p ∧ (waitBody k c me clear r).ticks = k.ticks := by
  unfold waitBody at started ⊢
  split at started
  · rename_i q _ found
    refine ⟨?_, rfl⟩
    have ne : p ≠ q := by
      rintro rfl
      simp [Kernel.Started, Kernel.stage, unused, ProcState.stage] at started
    exact books_of_modify_ne rfl ne
  · have asleep := modify_data k.tab me p Proc.books (fun r => { r with chan := .proc me, state := .sleeping }) rfl
    split_ifs
    · exact ⟨rfl, rfl⟩
    · exact ⟨asleep, rfl⟩

/-! ## What a step does to a record -/

/-- The state in which a tick finds process `p`: `wakeup(&ticks)` comes before the accounting. -/
def tickState (b : Build) (k : Kernel ncpu) (p : Slot) : Event ncpu → Option ProcState
  | .tick _ => some ((wakeup1 b .ticks k.tab).proc p).state
  | _ => none

/-- The record of `p` after the step. -/
def ledger (b : Build) (k : Kernel ncpu) (e : Event ncpu) (p : Slot) : Perf :=
  match tickState b k p e with
  | some st => (k.perf p).advance st
  | none =>
    if forked k e = some p then ⟨k.ticks, 0, 0, 0, 0⟩
    else if exiting k e = some p then { k.perf p with ttime := k.ticks }
    else k.perf p

/-- The time after the step. -/
def clock (k : Kernel ncpu) : Event ncpu → Int
  | .tick _ => k.ticks + 1
  | _ => k.ticks

/-- The record and the quantum counter of `p` after the step: only a `fork` resets the counter. -/
def account (b : Build) (k : Kernel ncpu) (e : Event ncpu) (p : Slot) : Perf × Int :=
  (ledger b k e p, if forked k e = some p then 0 else (k.tab.proc p).runQuanta)

/-- **The record of a process that is in use after a step**, with its quantum counter. -/
theorem step_books (taken : step b k e = some k') (noCall : ∀ c, e ≠ .advanceprocstats c) (started : k'.Started p) :
    k'.books p = account b k e p ∧ k'.ticks = clock k e := by
  cases step_cases taken with
  | schedule _ _ round =>
    exact schedule_books round
  | rescan | back | backScan =>
    exact ⟨rfl, rfl⟩
  | scan at_ =>
    unfold scan
    split
    · dsimp only
      split
      · exact ⟨rfl, rfl⟩
      · exact ⟨books_of_modify (g := fun r => { r with state := .running }) rfl fun _ => rfl, rfl⟩
    · exact ⟨rfl, rfl⟩
  | @resume c q at_ =>
    have awake : ((k.tab.modify q fun r => { r with chan := .null }).proc p).books = (k.tab.proc p).books :=
      modify_data k.tab q p Proc.books _ rfl
    unfold resume at started ⊢
    dsimp only at started ⊢
    cases returns : k.resume q with
    | forkret | yield => exact ⟨rfl, rfl⟩
    | sleep => exact ⟨awake, rfl⟩
    | wait | waitStat =>
      rw [returns] at started
      have body := waitBody_books (fun _ => rfl) started
      exact ⟨body.1.trans awake, body.2⟩
  | yield =>
    exact ⟨makeRunnable_books k.tab, rfl⟩
  | @sleep c chan =>
    exact ⟨books_of_modify (g := fun r => { r with chan := chan, state := .sleeping }) rfl fun _ => rfl, rfl⟩
  | wakeup =>
    exact ⟨wakeup1_books _ k.tab, rfl⟩
  | kill =>
    exact ⟨kill_books k.tab _, rfl⟩
  | sigsend =>
    exact ⟨sigsend_books k.tab _ _, rfl⟩
  | @exit c me _ _ current =>
    refine ⟨?_, rfl⟩
    have before : ((reparent b me k.initproc (wakeup1 b (.ofProc (k.tab.proc me).parent) k.tab)).proc p).books = k.books p :=
      (reparent_books _ _).trans (wakeup1_books _ _)
    have who : account b k (.exit c) p =
        if p = me then ({ k.perf p with ttime := k.ticks }, (k.tab.proc p).runQuanta) else k.books p := by
      simp only [account, ledger, tickState, forked, exiting, current, reduceCtorEq, if_false, Option.some.injEq,
        eq_comm (a := me)]
      split_ifs <;> rfl
    rw [who]
    unfold exit Kernel.books
    dsimp only [Kernel.enterSched, Kernel.setCpu]
    rw [modify_proc]
    split_ifs with same
    · subst same
      exact congrArg (fun f : Perf × Int => ({ f.1 with ttime := k.ticks }, f.2)) before
    · exact before
  | wait | waitStat =>
    exact waitBody_books (fun _ => rfl) started
  | allocproc =>
    unfold allocproc at started ⊢
    split at started
    · exact ⟨rfl, rfl⟩
    · rename_i new _
      have ne : p ≠ new := by
        rintro rfl
        simp [Kernel.Started, Kernel.stage, ProcState.stage] at started
      exact ⟨books_of_modify_ne (g := fun r => { r with state := .embryo, pid := k.nextpid, ctime := k.ticks }) rfl ne, rfl⟩
  | @forkFail c q new =>
    have ne : p ≠ new := by
      rintro rfl
      simp [Kernel.Started, Kernel.stage, ProcState.stage] at started
    exact ⟨books_of_modify_ne (g := fun r => { r with state := .unused }) rfl ne, rfl⟩
  | @forkDone c parent new at_ isNew =>
    refine ⟨?_, rfl⟩
    have who : account b k (.forkDone c) p = if p = new then (⟨k.ticks, 0, 0, 0, 0⟩, 0) else k.books p := by
      simp only [account, ledger, tickState, forked, exiting, at_, isNew, reduceCtorEq, if_false, Option.some.injEq,
        eq_comm (a := new)]
      split_ifs <;> rfl
    rw [who]
    unfold forkDone Kernel.books
    dsimp only
    rw [makeRunnable_books, modify_proc]
    split_ifs <;> rfl
  | tick =>
    refine ⟨?_, rfl⟩
    exact (advanceprocstats_books _ p).trans
      (congrArg (fun f : Perf × Int => (f.1.advance _, f.2)) (wakeup1_books .ticks k.tab))
  | advanceprocstats => exact absurd rfl (noCall _)
  | @priority c n =>
    exact ⟨books_of_modify (g := fun r => { r with priority := n }) rfl fun _ => rfl, rfl⟩

theorem step_perf (taken : step b k e = some k') (noCall : ∀ c, e ≠ .advanceprocstats c) (started : k'.Started p) :
    k'.perf p = ledger b k e p ∧ k'.ticks = clock k e := by
  obtain ⟨books, ticks⟩ := step_books taken noCall started
  exact ⟨congrArg Prod.fst books, ticks⟩

/-! ## Whole runs -/

/-- The number of ticks that found `p` in state `st`, since the last `fork` that started `p`. -/
def spent (b : Build) (st : ProcState) (p : Slot) (tr : List (Kernel ncpu × Event ncpu)) : Nat :=
  (tr.reverse.takeWhile fun q => forked q.1 q.2 ≠ some p).countP fun q => tickState b q.1 p q.2 = some st

theorem spent_concat (b : Build) (st : ProcState) (p : Slot) (tr : List (Kernel ncpu × Event ncpu)) (k : Kernel ncpu)
    (e : Event ncpu) : spent b st p (tr ++ [(k, e)]) =
      if forked k e = some p then 0 else spent b st p tr + if tickState b k p e = some st then 1 else 0 := by
  rw [spent, List.reverse_append, List.reverse_singleton, List.singleton_append, List.takeWhile_cons]
  by_cases new : forked k e = some p
  · simp [new]
  · rw [if_pos (by simpa using new), if_neg new, List.countP_cons]
    simp [spent]

/-- The records as the history explains them, and who was forked. -/
structure Kept (b : Build) (tr : List (Kernel ncpu × Event ncpu)) (k : Kernel ncpu) : Prop where
  rutime : ∀ p, k.Started p → (k.perf p).rutime = spent b .running p tr
  retime : ∀ p, k.Started p → (k.perf p).retime = spent b .runnable p tr
  stime : ∀ p, k.Started p → (k.perf p).stime = spent b .sleeping p tr
  alive : ∀ p, k.stage p = .alive →
    (k.perf p).stime + (k.perf p).retime + (k.perf p).rutime ≤ k.ticks - (k.perf p).ctime
  zombie : ∀ p, k.stage p = .zombie →
    (k.perf p).stime + (k.perf p).retime + (k.perf p).rutime ≤ (k.perf p).ttime - (k.perf p).ctime
  forks : ∀ p, k.Started p → p ≠ k.initproc → ∃ q ∈ tr, forked q.1 q.2 = some p

/-- A process that is in use after a step was in use before, or has been forked in it; and a zombie was one before,
or has exited in it. -/
theorem Change.started (change : Change k e k') : k'.Started p →
    forked k e = some p ∧ k'.stage p = .alive ∨
      k.Started p ∧ (k'.stage p = k.stage p ∨ exiting k e = some p ∧ k.stage p = .alive ∧ k'.stage p = .zombie) := by
  intro started
  have kept (same : k'.stage p = k.stage p) : k.Started p ∧ (k'.stage p = k.stage p ∨
      exiting k e = some p ∧ k.stage p = .alive ∧ k'.stage p = .zombie) := by
    rw [Kernel.Started, same] at started
    exact ⟨started, .inl same⟩
  have notUsed {st : Stage} (is : k'.stage p = st) (alive : st ≠ .alive) (zombie : st ≠ .zombie) : False := by
    rw [Kernel.Started, is] at started
    exact started.elim alive zombie
  cases change with
  | quiet same => exact .inr (kept (same p).stage)
  | block me stage stage' pid parent childless others =>
    refine .inr (kept ?_)
    rcases eq_or_ne p me with rfl | ne
    · rw [stage, stage']
    · exact (others p ne).stage
  | reap me q reaps child dead gone orphan others =>
    have ne : p ≠ q := fun same => notUsed (same ▸ gone) (by decide) (by decide)
    exact .inr (kept (others p ne).stage)
  | exit me exits alive notInit dead stages pid parent blocked parentAwake initAwake nextpid noReap who =>
    rcases eq_or_ne p me with rfl | ne
    · exact .inr ⟨.inl alive, .inr ⟨who, alive, dead⟩⟩
    · exact .inr (kept (stages p ne))
  | alloc q free new pid parent others =>
    have ne : p ≠ q := fun same => notUsed (same ▸ new) (by decide) (by decide)
    exact .inr (kept (others p ne).stage)
  | abandon q new free parent others =>
    have ne : p ≠ q := fun same => notUsed (same ▸ free) (by decide) (by decide)
    exact .inr (kept (others p ne).stage)
  | born r q alive new started' parent pid awake others nextpid noExit noReap forks =>
    rcases eq_or_ne p q with rfl | ne
    · exact .inl ⟨forks, started'⟩
    · exact .inr (kept (others p ne).stage)

/-- The fields of a record after a step that does not start the process. -/
theorem ledger_fields (old : forked k e ≠ some p) :
    (ledger b k e p).rutime = (k.perf p).rutime + (if tickState b k p e = some .running then 1 else 0) ∧
    (ledger b k e p).retime = (k.perf p).retime + (if tickState b k p e = some .runnable then 1 else 0) ∧
    (ledger b k e p).stime = (k.perf p).stime + (if tickState b k p e = some .sleeping then 1 else 0) ∧
    (ledger b k e p).ctime = (k.perf p).ctime ∧
    (tickState b k p e = none → exiting k e = some p → (ledger b k e p).ttime = k.ticks) ∧
    (exiting k e ≠ some p → (ledger b k e p).ttime = (k.perf p).ttime) := by
  unfold ledger
  cases tickState b k p e with
  | some st => cases st <;> simp [Perf.advance]
  | none =>
    simp only [if_neg old]
    by_cases exits : exiting k e = some p
    · simp [exits]
    · simp [exits]

theorem tickState_alive (zombie : k.stage p = .zombie) (st : ProcState) (alive : st.stage = .alive) :
    tickState b k p e ≠ some st := by
  cases e with
  | tick c =>
    intro found
    have woken := stage_of_states (Awakens.wakeup1 (b := b) .ticks k.tab).states p
    rw [Option.some.inj found, alive] at woken
    cases woken.trans zombie
  | _ => simp [tickState]

theorem clock_eq (k : Kernel ncpu) (e : Event ncpu) (p : Slot) :
    clock k e = k.ticks ∧ tickState b k p e = none ∨ clock k e = k.ticks + 1 ∧ exiting k e = none := by
  cases e <;> simp [clock, tickState, exiting]

/-- A process that is in use is not the one that a `fork` starts. -/
theorem forked_ne (inv : Inv b False k) (started : k.Started p) : forked k e ≠ some p := by
  intro new
  have embryo : k.stage p = .embryo := by
    cases e with
    | forkDone c =>
      simp only [forked] at new
      split at new
      · exact congrArg ProcState.stage (inv.child _ p new)
      · cases new
    | _ => cases new
  rw [Kernel.Started, embryo] at started
  rcases started with h | h <;> cases h

/-- **A step keeps the books.** -/
theorem Kept.step (kept : Kept b tr k) (inv : Inv b False k) (taken : step b k e = some k')
    (noCall : ∀ c, e ≠ .advanceprocstats c) : Kept b (tr ++ [(k, e)]) k' := by
  have change := step_change inv taken
  have init := step_initproc inv taken
  have notForked {p : Slot} (started : k.Started p) : forked k e ≠ some p := forked_ne inv started
  have fresh {p : Slot} (new : forked k e = some p) : ledger b k e p = ⟨k.ticks, 0, 0, 0, 0⟩ ∧ clock k e = k.ticks := by
    cases e with
    | forkDone c => simp [ledger, tickState, new, clock]
    | _ => cases new
  have counter {g : Perf → Int} {st : ProcState} (zero : ∀ c, g ⟨c, 0, 0, 0, 0⟩ = 0)
      (adds : ∀ p, forked k e ≠ some p →
        g (ledger b k e p) = g (k.perf p) + (if tickState b k p e = some st then 1 else 0))
      (before : ∀ p, k.Started p → g (k.perf p) = spent b st p tr) (p : Slot) (started : k'.Started p) :
      g (k'.perf p) = spent b st p (tr ++ [(k, e)]) := by
    rw [(step_perf taken noCall started).1, spent_concat]
    rcases change.started started with ⟨new, _⟩ | ⟨old, _⟩
    · rw [(fresh new).1, if_pos new, zero]
      rfl
    · rw [if_neg (notForked old), adds p (notForked old), before p old]
      push_cast
      rfl
  refine ⟨counter (fun _ => rfl) (fun p old => (ledger_fields old).1) kept.rutime,
    counter (fun _ => rfl) (fun p old => (ledger_fields old).2.1) kept.retime,
    counter (fun _ => rfl) (fun p old => (ledger_fields old).2.2.1) kept.stime, ?_, ?_, ?_⟩
  · intro p alive
    obtain ⟨perf, ticks⟩ := step_perf taken noCall (.inl alive : k'.Started p)
    rw [perf, ticks]
    rcases change.started (.inl alive) with ⟨new, _⟩ | ⟨before, same | ⟨_, _, dead⟩⟩
    · rw [(fresh new).1, (fresh new).2]
      simp
    · obtain ⟨rutime, retime, stime, ctime, _⟩ := ledger_fields (b := b) (notForked before)
      have bound := kept.alive p (same.symm.trans alive)
      rw [rutime, retime, stime, ctime]
      rcases clock_eq (b := b) k e p with ⟨now, noTick⟩ | ⟨now, _⟩
      · rw [now, noTick]
        simpa using bound
      · rw [now]
        cases tickState b k p e with
        | none =>
          simp
          omega
        | some st =>
          cases st <;> simp <;> omega
    · rw [alive] at dead
      cases dead
  · intro p zombie
    obtain ⟨perf, _⟩ := step_perf taken noCall (.inr zombie : k'.Started p)
    rw [perf]
    rcases change.started (.inr zombie) with ⟨_, alive⟩ | ⟨before, same | ⟨exits, alive, _⟩⟩
    · rw [zombie] at alive
      cases alive
    · have was : k.stage p = .zombie := same.symm.trans zombie
      obtain ⟨rutime, retime, stime, ctime, _, ttime⟩ := ledger_fields (b := b) (notForked before)
      have notExit : exiting k e ≠ some p := by
        intro exits
        cases e with
        | exit c =>
          have running := inv.run c p (current_run exits)
          rw [stage_running running] at was
          cases was
        | _ => cases exits
      rw [rutime, retime, stime, ctime, ttime notExit, if_neg (tickState_alive was _ rfl), if_neg (tickState_alive was _ rfl),
        if_neg (tickState_alive was _ rfl)]
      simpa using kept.zombie p was
    · obtain ⟨rutime, retime, stime, ctime, ttime, _⟩ := ledger_fields (b := b) (notForked before)
      have bound := kept.alive p alive
      have noTick : tickState b k p e = none := by
        cases e with
        | tick c => cases exits
        | _ => rfl
      rw [rutime, retime, stime, ctime, ttime noTick exits, noTick]
      simpa using bound
  · intro p started notInit
    rcases change.started started with ⟨new, _⟩ | ⟨before, _⟩
    · exact ⟨(k, e), by simp, new⟩
    · obtain ⟨q, mem, isFork⟩ := kept.forks p before (init ▸ notInit)
      exact ⟨q, List.mem_append_left _ mem, isFork⟩

theorem boot_books (b : Build) (ncpu : Nat) (p : Slot) : (boot b ncpu).books p = (⟨0, 0, 0, 0, 0⟩, 0) := by
  refine (makeRunnable_books _).trans ?_
  rw [modify_proc]
  split_ifs <;> rfl

theorem boot_kept (b : Build) (ncpu : Nat) : Kept b [] (boot b ncpu) := by
  have zero (p : Slot) : (boot b ncpu).perf p = ⟨0, 0, 0, 0, 0⟩ := congrArg Prod.fst (boot_books b ncpu p)
  have first {p : Slot} (started : (boot b ncpu).Started p) : p = 0 := by
    by_contra other
    rw [Kernel.Started, boot_stage, if_neg other] at started
    rcases started with h | h <;> cases h
  refine ⟨fun p _ => by rw [zero]; rfl, fun p _ => by rw [zero]; rfl, fun p _ => by rw [zero]; rfl, fun p _ => ?_,
    fun p zombie => ?_, fun p started notInit => absurd (first started) notInit⟩
  · rw [zero]
    show (0 : Int) + 0 + 0 ≤ 0 - 0
    decide
  · rw [zero]
    decide

theorem run_kept (run : Run (step b) (boot b ncpu) tr k) (noCall : ∀ q ∈ tr, ∀ c, q.2 ≠ .advanceprocstats c) :
    Inv b False k ∧ Kept b tr k := by
  have always : (∀ q ∈ tr, ∀ c, q.2 ≠ .advanceprocstats c) → Inv b False k ∧ Kept b tr k := by
    refine run.history (fun tr k => (∀ q ∈ tr, ∀ c, q.2 ≠ .advanceprocstats c) → Inv b False k ∧ Kept b tr k)
      (fun _ => ⟨boot_good nofun, boot_kept b ncpu⟩) ?_
    intro tr k e k' ih taken quiet
    obtain ⟨inv, kept⟩ := ih fun q mem => quiet q (List.mem_append_left _ mem)
    exact ⟨step_good nofun inv nofun taken, kept.step inv taken (quiet (k, e) (by simp))⟩
  exact always noCall

/-- The child that `wait_stat` reaps in this step, and the record it copies out. -/
def statReturned (k : Kernel ncpu) : Event ncpu → Option (Slot × Perf)
  | .waitStat c => (k.current c).bind fun me => (waitScan k.tab me slots false).1.map fun q => (q, k.perf q)
  | .resume c => match k.cpu c with
    | .switchTo me =>
      if k.resume me = .waitStat then (waitScan k.tab me slots false).1.map fun q => (q, k.perf q) else none
    | _ => none
  | _ => none

theorem statReturned_zombie {f : Perf} (returned : statReturned k e = some (q, f)) :
    k.stage q = .zombie ∧ f = k.perf q := by
  have scanned {me : Slot} (found : ((waitScan k.tab me slots false).1.map fun q => (q, k.perf q)) = some (q, f)) :
      k.stage q = .zombie ∧ f = k.perf q := by
    obtain ⟨r, isR, same⟩ := Option.map_eq_some_iff.1 found
    cases same
    obtain ⟨_, dead⟩ := waitScan_some (Prod.ext isR rfl : waitScan k.tab me slots false = (some q, _))
    exact ⟨zombie_iff.2 dead, rfl⟩
  cases e with
  | waitStat c =>
    obtain ⟨me, _, found⟩ := Option.bind_eq_some_iff.1 returned
    exact scanned found
  | resume c =>
    simp only [statReturned] at returned
    split at returned
    · split_ifs at returned
      exact scanned returned
    · cases returned
  | _ => cases returned

/-- **Time accounting is conservative.** In every run in which no process calls `advanceprocstats`, the record that
`wait_stat` returns for a child counts exactly the ticks that found the child `RUNNING`, `RUNNABLE` and `SLEEPING`
since the `fork` that started it, and together they are no more than the time from its creation to its end. -/
theorem wait_stat_accounts (b : Build) (run : Run (step b) (boot b ncpu) tr k)
    (noCall : ∀ q ∈ tr, ∀ c, q.2 ≠ .advanceprocstats c) {pre post : List (Kernel ncpu × Event ncpu)} {s : Kernel ncpu}
    {child : Slot} {f : Perf} (split : tr = pre ++ (s, e) :: post) (returned : statReturned s e = some (child, f)) :
    (∃ q ∈ pre, forked q.1 q.2 = some child) ∧ f.rutime = spent b .running child pre ∧
      f.retime = spent b .runnable child pre ∧ f.stime = spent b .sleeping child pre ∧
      f.stime + f.retime + f.rutime ≤ f.ttime - f.ctime := by
  subst split
  have before := run.around.1
  obtain ⟨_, kept⟩ := run_kept before fun q mem => noCall q (List.mem_append_left _ mem)
  obtain ⟨zombie, rfl⟩ := statReturned_zombie returned
  have started : s.Started child := .inr zombie
  have notInit : child ≠ s.initproc := by
    rintro rfl
    cases zombie.symm.trans (run_family before).init
  exact ⟨kept.forks child started notInit, kept.rutime child started, kept.retime child started,
    kept.stime child started, kept.zombie child zombie⟩

/-- The first process forks, a tick finds the child ready, another one finds it running; it exits. -/
def tickTwice : List (Event 1) :=
  [.schedule 0, .resume 0, .allocproc 0, .forkDone 0, .tick 0, .waitStat 0, .back 0, .schedule 0, .resume 0, .tick 0,
    .exit 0, .back 0, .schedule 0]

/-- `wait_stat` returns one tick of running and one of waiting. -/
theorem wait_stat_accounts_tickTwice : ∃ pre s k, Run (step .frr) (boot .frr 1) (pre ++ [(s, .resume 0)]) k ∧
    statReturned s (.resume 0) = some (1, ⟨0, 2, 0, 1, 1⟩) ∧ spent .frr .running 1 pre = 1 ∧ spent .frr .runnable 1 pre = 1 := by
  have reached : (exec (step .frr) (boot .frr 1) tickTwice).map
      (fun s => (statReturned s (.resume 0), (step .frr s (.resume 0)).isSome)) =
      some (some (1, ⟨0, 2, 0, 1, 1⟩), true) := by decide +kernel
  have quiet : ∀ e ∈ tickTwice ++ [.resume 0], ∀ c, e ≠ .advanceprocstats c := by decide +kernel
  obtain ⟨s, done, facts⟩ := Option.map_eq_some_iff.1 reached
  obtain ⟨returned, enabled⟩ := Prod.mk.inj facts
  obtain ⟨k, taken⟩ := Option.isSome_iff_exists.1 enabled
  have run := (run_of_exec done).next taken
  have noCall : ∀ q ∈ record (step .frr) (boot .frr 1) tickTwice ++ [(s, .resume 0)], ∀ c, q.2 ≠ .advanceprocstats c := by
    intro q mem
    refine quiet q.2 ?_
    have events := List.mem_map_of_mem (f := Prod.snd) mem
    rwa [List.map_append, record_events done, List.map_singleton] at events
  obtain ⟨_, rutime, retime, _⟩ := wait_stat_accounts .frr run noCall rfl returned
  exact ⟨_, s, k, run, returned, (Int.natCast_inj.1 rutime).symm, (Int.natCast_inj.1 retime).symm⟩

end Xv6.Sched
