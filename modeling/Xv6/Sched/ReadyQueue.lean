import Xv6.Sched.Steps

/-!
# The ready queue over whole runs

The two properties that the lottery kernels rest on. The queue is a well-formed
doubly linked list of `RUNNABLE` processes whenever `ptable.lock` is free, so a
dispatched process is `RUNNABLE` and on no other CPU. Conversely every
`RUNNABLE` process is on the queue exactly as long as no signal has been sent to
a sleeping process: `sigsend` makes the sleeper `RUNNABLE` without a push.
-/

namespace Xv6.Sched

open Xv6.Lib

variable {ncpu : Nat} {full : Prop} {b : Build} {k : Kernel ncpu} {tr : List (Kernel ncpu × Event ncpu)}

/-- The kernel starts in the invariant, with the first process queued if there is a queue. -/
theorem boot_good (keep : full → b.queued = true) : Inv b full (boot b ncpu) := by
  have zero : Ready Table.zero [] := ⟨IsDList.empty _ _ (fun _ => rfl) fun _ => rfl, by simp⟩
  have first : Ready (Table.zero.modify 0 fun q => { q with pid := 1 }) [] :=
    zero.modify_off (by simp) _ rfl rfl
  have none : Complete (Table.zero.modify 0 fun q => { q with pid := 1 }) [] := by
    intro p awake
    rw [modify_data Table.zero 0 p Proc.state (fun q => { q with pid := 1 }) rfl] at awake
    cases awake
  obtain ⟨l, ready, complete, still⟩ := first.wake b (p := 0) (by simp)
  exact ⟨⟨l, ready, fun isFull => complete (keep isFull) none, still⟩, by simp [boot], by simp [boot],
    by simp [boot], by simp [boot], by simp [boot, Ctx.proc], by simp [boot], by simp [boot]⟩

/-- Every state of a run is good. -/
theorem run_good (run : Run (step b) (boot b ncpu) tr k) : Inv b False k :=
  run.invariant_all (Inv b False) (boot_good False.elim) fun _ _ _ inv taken =>
    step_good False.elim inv False.elim taken

/-! ## The queue is a well-formed list -/

/-- The queue fields of `t` are a doubly linked list of the processes `l`. -/
structure Threads (t : Table) (l : List Slot) : Prop where
  /-- Following `rrnext` from `first` visits `l` and ends in null. -/
  walk : IsDList.follow (fun p => (t.proc p).rrnext) l.length t.first = (l, none)
  /-- It reaches `last`. -/
  reaches : t.last = l.getLast?
  inverse : ∀ p q, (t.proc q).rrprev = some p ↔ (t.proc p).rrnext = some q
  nodup : l.Nodup
  ends : t.first = none ↔ t.last = none
  outside : ∀ p, p ∉ l → (t.proc p).rrnext = none ∧ (t.proc p).rrprev = none

/-- `Links` read as the source's invariant. -/
theorem Links.threads {t : Table} {l : List Slot} (links : Links t l) : Threads t l where
  walk := links.follow_first
  reaches := links.last_eq
  inverse _ _ := links.prev_iff
  nodup := links.nodup
  ends := links.first_none_iff
  outside _ off := ⟨links.next_none off, links.prev_none off⟩

/-- **The queue is well formed** in every state of every run where the lock is free; push appends
and removal deletes; and a scheduler round neither faults nor loops, and dispatches only a queued
`RUNNABLE` process that is on no CPU. -/
theorem rrqueue_well_formed (queued : b.queued = true) (run : Run (step b) (boot b ncpu) tr k)
    (free : k.lock = none) :
    ∃ l, Threads k.tab l ∧ (∀ p ∈ l, (k.tab.proc p).state = .runnable) ∧
      (∀ p, p ∉ l → Threads (pushProcToRRqueue k.tab p) (l ++ [p])) ∧
      (∀ p, Threads (removeProcFromRRqueue k.tab p) (l.erase p)) ∧
      ∀ c, k.cpu c = .sched → ∃ k', step b k (.schedule c) = some k' ∧
        ∀ p, k'.cpu c = .switchTo p →
          p ∈ l ∧ (k.tab.proc p).state = .runnable ∧ ∀ c', (k.cpu c').proc ≠ some p := by
  have inv := run_good run
  obtain ⟨l, ready, _⟩ := inv.queue
  refine ⟨l, ready.links.threads, ready.runnable, fun p off => (ready.links.push off).threads,
    fun p => (ready.links.remove p).threads, fun c idle => ?_⟩
  obtain ⟨t, total, g, _, released | ⟨q, inside, switched⟩⟩ := schedule_cases ready b c
  · refine ⟨_, by rw [step, if_pos ⟨free, idle⟩, if_pos queued]; exact released, fun p at_ => ?_⟩
    rw [idle] at at_
    cases at_
  · refine ⟨_, by rw [step, if_pos ⟨free, idle⟩, if_pos queued]; exact switched, fun p at_ => ?_⟩
    have same : q = p := by simpa using at_
    subst same
    have awake := ready.runnable q inside
    exact ⟨inside, awake, inv.not_current free (by rw [awake]; decide)⟩

/-- On two CPUs the first process forks, the child runs and sleeps; the parent forks again, wakes the
child and then signals it. -/
def signalAwake : List (Event 2) :=
  [.schedule 0, .resume 0, .allocproc 0, .forkDone 0, .schedule 1, .resume 1, .sleep 1 .ticks, .back 1,
    .allocproc 0, .forkDone 0, .wakeup 0 .ticks, .sigsend 0 2 0]

/-- After four pushes and two removals the queue is the second child and then the first, and a further
round of the idle CPU takes one of the two. -/
theorem rrqueue_well_formed_forks : ∃ tr k, Run (step .frr) (boot .frr 2) tr k ∧
    k.tab.first = some 2 ∧ (k.tab.proc 2).rrnext = some 1 ∧ k.tab.last = some 1 ∧
    ∃ l, Threads k.tab l ∧ (∀ p ∈ l, (k.tab.proc p).state = .runnable) ∧ Threads (removeProcFromRRqueue k.tab 2) (l.erase 2) ∧
      ∃ k', step .frr k (.schedule 1) = some k' ∧ ∀ p, k'.cpu 1 = .switchTo p → p ∈ l := by
  have final : (exec (step .frr) (boot .frr 2) signalAwake).map
      (fun k => (k.lock, k.cpu 1, k.tab.first, (k.tab.proc 2).rrnext, k.tab.last)) =
        some (none, .sched, some 2, some 1, some 1) := by decide +kernel
  obtain ⟨k, done, seen⟩ := Option.map_eq_some_iff.1 final
  obtain ⟨free, idle, first, next, last⟩ : k.lock = none ∧ k.cpu 1 = .sched ∧ k.tab.first = some 2 ∧
      (k.tab.proc 2).rrnext = some 1 ∧ k.tab.last = some 1 := by simpa using seen
  obtain ⟨l, threads, runnable, _, removed, round⟩ := rrqueue_well_formed rfl (run_of_exec done) free
  obtain ⟨k', taken, chosen⟩ := round 1 idle
  exact ⟨_, k, run_of_exec done, first, next, last, l, threads, runnable, removed 2, k', taken, fun p at_ => (chosen p at_).1⟩

/-! ## Every runnable process is queued -/

/-- `p` can be reached from `rrqueue.first` by `rrnext`. -/
def InQueue (t : Table) (p : Slot) : Prop :=
  ∃ f, t.first = some f ∧ Relation.ReflTransGen (fun q r => (t.proc q).rrnext = some r) f p

theorem Links.inQueue_iff {t : Table} {l : List Slot} (links : Links t l) {p : Slot} : InQueue t p ↔ p ∈ l :=
  links.reachable_iff

/-- A signal to a sleeper makes it `RUNNABLE` and leaves the queue as it was. -/
theorem sigsend_sleeper {t : Table} {l : List Slot} (links : Links t l) {pid signum : Int} {p : Slot}
    (low : 0 ≤ signum) (high : signum < 31) (found : findPid t pid = some p) (asleep : (t.proc p).state = .sleeping) :
    Links (sigsend t pid signum).1 l ∧ ((sigsend t pid signum).1.proc p).state = .runnable := by
  have valid : ¬ (signum ≥ 31 ∨ signum < 0) := by omega
  simp only [sigsend, valid, if_false, found, modify_proc_self, asleep, if_true, and_true]
  exact (links.modify p _ rfl rfl).modify p _ rfl rfl

/-- **No runnable process is lost, exactly as long as no signal goes to a sleeper.** -/
theorem runnable_queued_iff (queued : b.queued = true) (run : Run (step b) (boot b ncpu) tr k) :
    (∀ s ∈ visited tr k, s.lock = none → ∀ p, (s.tab.proc p).state = .runnable → InQueue s.tab p) ↔
      ∀ q ∈ tr, SigsendAwake q.1 q.2 := by
  constructor
  · rintro kept ⟨s, e⟩ member c pid signum p rfl low high found asleep
    obtain ⟨pre, rest, s', rfl, reached, taken⟩ := run.prefix_of_mem member
    have next := run.visits_next member taken
    obtain ⟨_, _, free, rfl⟩ := guarded taken
    obtain ⟨l, ready, _⟩ := (run_good reached).queue
    obtain ⟨links, awake⟩ := sigsend_sleeper ready.links low high found asleep
    have inside := links.inQueue_iff.1 (kept _ next free p awake)
    exact ready.not_mem (by rw [asleep]; decide) inside
  · intro calm s member _ p awake
    obtain ⟨pre, rest, rfl, reached⟩ := run.prefix_of_visited member
    have inv : Inv b True s := reached.invariant SigsendAwake (Inv b True) (boot_good fun _ => queued)
      (fun _ _ _ inv ok taken => step_good (fun _ => queued) inv (fun _ => ok) taken)
      (fun q inside => calm q (List.mem_append_left _ inside))
    obtain ⟨l, ready, complete, _⟩ := inv.queue
    exact ready.links.inQueue_iff.2 (complete trivial p awake)

/-- With the signal sent after the wakeup, the signalled child and its sibling are both `RUNNABLE` and queued. -/
theorem runnable_queued_signalAwake : ∃ tr k, Run (step .frr) (boot .frr 2) tr k ∧ (k.tab.proc 1).pending = 1 ∧
    (∀ s ∈ visited tr k, s.lock = none → ∀ p, (s.tab.proc p).state = .runnable → InQueue s.tab p) ∧
    InQueue k.tab 1 ∧ InQueue k.tab 2 := by
  have final : (exec (step .frr) (boot .frr 2) signalAwake).map
      (fun k => (k.lock, (k.tab.proc 1).pending, (k.tab.proc 1).state, (k.tab.proc 2).state)) =
        some (none, 1, .runnable, .runnable) := by decide +kernel
  obtain ⟨k, done, seen⟩ := Option.map_eq_some_iff.1 final
  obtain ⟨free, signalled, one, two⟩ : k.lock = none ∧ (k.tab.proc 1).pending = 1 ∧
      (k.tab.proc 1).state = .runnable ∧ (k.tab.proc 2).state = .runnable := by simpa using seen
  have awake : ∀ q ∈ record (step .frr) (boot .frr 2) signalAwake, q.2 ∈ signalAwake ∧
      (q.2 = .sigsend 0 2 0 → (findPid q.1.tab 2).map (fun p => (q.1.tab.proc p).state) = some .runnable) := by
    decide +kernel
  have kept := (runnable_queued_iff rfl (run_of_exec done)).2 fun q member c pid signum p sent _ _ found asleep => by
    obtain ⟨known, there⟩ := awake q member
    obtain ⟨rfl, rfl, rfl⟩ : c = 0 ∧ pid = 2 ∧ signum = 0 := by simpa [sent, signalAwake] using known
    have ready := there sent
    simp [found, asleep] at ready
  have last : k ∈ visited (record (step .frr) (boot .frr 2) signalAwake) k := by simp [visited]
  exact ⟨_, k, run_of_exec done, signalled, kept, kept k last free 1 one, kept k last free 2 two⟩

/-- On two CPUs the first process forks, the child runs and sleeps, and the parent signals it. -/
def signalSleeper : List (Event 2) :=
  [.schedule 0, .resume 0, .allocproc 0, .forkDone 0, .schedule 1, .resume 1, .sleep 1 .ticks, .back 1, .sigsend 0 2 0]

/-- The child is then `RUNNABLE` with the lock free and the queue empty: no scheduler will ever pick it. -/
theorem runnable_lost : ∃ tr k, Run (step .frr) (boot .frr 2) tr k ∧ k.lock = none ∧
    ∃ p, (k.tab.proc p).state = .runnable ∧ ¬ InQueue k.tab p := by
  have final : (exec (step .frr) (boot .frr 2) signalSleeper).map
      (fun k => (k.lock, (k.tab.proc 1).state, k.tab.first)) = some (none, .runnable, none) := by decide +kernel
  obtain ⟨k, done, seen⟩ := Option.map_eq_some_iff.1 final
  obtain ⟨free, awake, empty⟩ : k.lock = none ∧ (k.tab.proc 1).state = .runnable ∧ k.tab.first = none := by
    simpa using seen
  refine ⟨_, k, run_of_exec done, free, 1, awake, ?_⟩
  rintro ⟨f, head, _⟩
  rw [empty] at head
  cases head

end Xv6.Sched
