import Xv6.Sched.Reap

/-!
# Whom `kill` and `sigsend` reach

Both calls take the first slot with the given pid and do not look at its state. A
slot that was never used or has been reaped has pid 0, and the slot of a `fork` that
failed keeps the pid it was given. No process in use shares its pid with another
slot, so the calls are right exactly for the pids that no unused slot holds, but for
one store: `kill` of a sleeper links it behind the last process of the queue.
-/

namespace Xv6.Sched

open Xv6.Lib

variable {ncpu : Nat} {b : Build} {k k' : Kernel ncpu} {e : Event ncpu} {t : Table} {p q : Slot} {pid : Int}

/-! ## Pids of slots in use -/

/-- A process in use has a pid of its own, also among the unused slots. -/
structure Named (k : Kernel ncpu) : Prop where
  past : ∀ p, k.pid p < k.nextpid
  positive : ∀ p, k.stage p ≠ .unused → 0 < k.pid p
  own : ∀ p q, k.stage p ≠ .unused → k.pid q = k.pid p → q = p
  next : 0 < k.nextpid

/-- A step that gives no pid. -/
theorem Named.keep (named : Named k) (pid : ∀ p, k'.pid p = k.pid p)
    (used : ∀ p, k'.stage p ≠ .unused → k.stage p ≠ .unused) (nextpid : k'.nextpid = k.nextpid) : Named k' where
  past p := by
    rw [pid, nextpid]
    exact named.past p
  positive p use := by
    rw [pid]
    exact named.positive p (used p use)
  own p q use same := by
    rw [pid, pid] at same
    exact named.own p q (used p use) same
  next := nextpid ▸ named.next

/-- A reaped slot gets pid 0. -/
theorem Named.reap (named : Named k) (gone : k'.stage q = .unused) (others : ∀ p ≠ q, Same k k' p)
    (nextpid : k'.nextpid = k.nextpid) (nameless : k'.pid q = 0) : Named k' where
  past p := by
    rcases eq_or_ne p q with rfl | ne
    · rw [nameless, nextpid]
      exact named.next
    · rw [(others p ne).pid, nextpid]
      exact named.past p
  positive p use := by
    have ne : p ≠ q := fun same => use (same ▸ gone)
    rw [(others p ne).stage] at use
    rw [(others p ne).pid]
    exact named.positive p use
  own p r use same := by
    have ne : p ≠ q := fun eq => use (eq ▸ gone)
    rw [(others p ne).stage] at use
    rw [(others p ne).pid] at same
    rcases eq_or_ne r q with rfl | other
    · have positive := named.positive p use
      rw [nameless] at same
      omega
    · rw [(others r other).pid] at same
      exact named.own p r use same
  next := nextpid ▸ named.next

/-- A new process gets a pid that no slot has. -/
theorem Named.alloc (named : Named k) (pid : k'.pid q = k.nextpid) (others : ∀ p ≠ q, Same k k' p)
    (nextpid : k'.nextpid = k.nextpid + 1) : Named k' where
  past p := by
    rcases eq_or_ne p q with rfl | ne
    · rw [pid, nextpid]
      omega
    · have before := named.past p
      rw [(others p ne).pid, nextpid]
      omega
  positive p use := by
    rcases eq_or_ne p q with rfl | ne
    · rw [pid]
      exact named.next
    · rw [(others p ne).stage] at use
      rw [(others p ne).pid]
      exact named.positive p use
  own p r use same := by
    rcases eq_or_ne p q with rfl | ne
    · by_contra other
      have before := named.past r
      rw [(others r other).pid, pid] at same
      omega
    · rw [(others p ne).stage] at use
      rw [(others p ne).pid] at same
      rcases eq_or_ne r q with rfl | other
      · have before := named.past p
        rw [pid] at same
        omega
      · rw [(others r other).pid] at same
        exact named.own p r use same
  next := by
    have before := named.next
    omega

theorem Named.change (named : Named k) (change : Change k e k') : Named k' := by
  cases change with
  | quiet same nextpid =>
    exact named.keep (fun p => (same p).pid) (fun p => by rw [(same p).stage]; exact id) nextpid
  | block me stage stage' pid parent childless others nextpid =>
    have stages := kept_of_others (stage'.trans stage.symm) fun p ne => (others p ne).stage
    exact named.keep (kept_of_others pid fun p ne => (others p ne).pid) (fun p => by rw [stages]; exact id) nextpid
  | reap me q reaps child dead gone orphan others nextpid noExit pid => exact named.reap gone others nextpid pid
  | exit me exits alive notInit dead stages pid parent blocked parentAwake initAwake nextpid =>
    refine named.keep pid (fun p use => ?_) nextpid
    rcases eq_or_ne p me with rfl | ne
    · rw [alive]
      decide
    · rwa [← stages p ne]
  | alloc q free new pid parent others nextpid => exact named.alloc pid others nextpid
  | abandon q new free parent others nextpid noExit noReap pid =>
    refine named.keep (kept_of_others pid fun p ne => (others p ne).pid) (fun p use => ?_) nextpid
    have ne : p ≠ q := fun same => use (same ▸ free)
    rwa [← (others p ne).stage]
  | born p q alive new started parent pid awake others nextpid =>
    refine named.keep (kept_of_others pid fun r ne => (others r ne).pid) (fun r use => ?_) nextpid
    rcases eq_or_ne r q with rfl | ne
    · rw [new]
      decide
    · rwa [← (others r ne).stage]

theorem boot_pid (b : Build) (ncpu : Nat) (p : Slot) : (boot b ncpu).pid p = if p = 0 then 1 else 0 := by
  have fields := Awakens.makeRunnable_fields b (Table.zero.modify 0 fun q => { q with pid := 1 }) 0 p
  rw [modify_proc] at fields
  refine fields.1.trans ?_
  split_ifs <;> rfl

theorem boot_named (b : Build) (ncpu : Nat) : Named (boot b ncpu) where
  past p := by
    rw [boot_pid]
    show _ < (2 : Int)
    split_ifs <;> decide
  positive p use := by
    rw [boot_stage] at use
    rw [boot_pid]
    split_ifs at use ⊢
    · decide
    · exact absurd rfl use
  own p q use same := by
    rw [boot_stage] at use
    rw [boot_pid, boot_pid] at same
    split_ifs at use same with first second
    · rw [first, second]
    · cases same
    · exact absurd rfl use
    · exact absurd rfl use
  next := show (0 : Int) < 2 by decide

theorem run_named {tr : List (Kernel ncpu × Event ncpu)} (run : Run (step b) (boot b ncpu) tr k) : Named k := by
  have both : Inv b False k ∧ Named k := by
    refine run.invariant_all (fun k => Inv b False k ∧ Named k) ⟨boot_good nofun, boot_named b ncpu⟩ ?_
    rintro k e k' ⟨inv, named⟩ taken
    exact ⟨step_good nofun inv nofun taken, named.change (step_change inv taken)⟩
  exact both.2

/-! ## The two calls -/

/-- A slot in use has the pid. -/
def HasPid (t : Table) (pid : Int) (p : Slot) : Prop := (t.proc p).state ≠ .unused ∧ (t.proc p).pid = pid

/-- The call returns 0 exactly if a process in use has the pid, and changes that slot only; otherwise it returns -1
and changes nothing. -/
structure ReachesLive (t : Table) (pid : Int) (result : Table × Int) : Prop where
  zero : result.2 = 0 ↔ ∃ p, HasPid t pid p
  only : ∀ p, HasPid t pid p → ∀ q ≠ p, result.1.proc q = t.proc q
  otherwise : (¬ ∃ p, HasPid t pid p) → result = (t, -1)

/-- The first slot with the pid. -/
theorem findPid_some (found : findPid t pid = some p) : (t.proc p).pid = pid := by
  simpa using List.find?_some found

theorem findPid_none (found : findPid t pid = none) (p : Slot) : (t.proc p).pid ≠ pid := by
  have all := List.find?_eq_none.1 found p (mem_slots p)
  simpa using all

/-- `kill` stores to another slot exactly when it queues a sleeper behind another process, whose `rrnext` it sets. -/
theorem kill_others_iff {l : List Slot} (ready : Ready t l) (found : findPid t pid = some p) :
    (∀ q ≠ p, (kill b t pid).1.proc q = t.proc q) ↔
      ¬ (b.queued = true ∧ t.last ≠ none ∧ (t.proc p).state = .sleeping) := by
  have flagged (q : Slot) (ne : q ≠ p) : (t.modify p fun r => { r with killed := true }).proc q = t.proc q :=
    modify_proc_ne _ p _ ne
  unfold kill makeRunnable
  rw [found]
  simp only [modify_proc_self]
  split_ifs with asleep queued
  · cases last : t.last with
    | none =>
      -- the push stores to `rrqueue` only
      simp only [ne_eq, not_true_eq_false, false_and, and_false, not_false_eq_true, iff_true]
      intro q ne
      rw [push_empty, modify_proc_ne _ p _ ne, flagged q ne]
      exact last
    | some r =>
      simp only [queued, asleep, ne_eq, reduceCtorEq, not_false_eq_true, and_self, not_true_eq_false, iff_false, not_forall]
      have queuedLast : r ∈ l := List.mem_of_getLast? (ready.links.last_eq ▸ last)
      refine ⟨r, fun same => ready.not_mem (by rw [asleep]; decide) (same ▸ queuedLast), fun kept => ?_⟩
      have next := congrArg Proc.rrnext kept
      rw [push_rrnext, show (t.proc r).rrnext = none from (ready.links.next_none_iff queuedLast).2 last] at next
      simp [Table.modify, last] at next
  · simp only [queued, false_and, not_false_eq_true, iff_true, Bool.false_eq_true]
    intro q ne
    rw [modify_proc_ne _ p _ ne, flagged q ne]
  · simp only [asleep, and_false, not_false_eq_true, iff_true]
    exact flagged

theorem sigsend_other {signum : Int} (low : 0 ≤ signum) (high : signum ≤ 30) (found : findPid t pid = some p)
    (ne : q ≠ p) : (sigsend t pid signum).1.proc q = t.proc q := by
  unfold sigsend
  rw [if_neg (by omega), found]
  dsimp only
  split_ifs
  · rw [modify_proc_ne _ p _ ne, modify_proc_ne _ p _ ne]
  · rw [modify_proc_ne _ p _ ne]

/-- The scan finds the process in use that has the pid. -/
theorem findPid_of_has (named : Named k) (has : HasPid k.tab pid p) : findPid k.tab pid = some p := by
  have used : k.stage p ≠ .unused := by
    rw [Kernel.stage]
    cases is : (k.tab.proc p).state <;> simp_all [ProcState.stage, HasPid]
  cases found : findPid k.tab pid with
  | none => exact absurd has.2 (findPid_none found p)
  | some q => rw [named.own p q used ((findPid_some found).trans has.2.symm)]

/-- A call that takes the first slot with the pid is right if and only if no unused slot has it and the call leaves
the other slots alone. -/
theorem reachesLive_iff (named : Named k) {result : Table × Int}
    (hit : ∀ p, findPid k.tab pid = some p → result.2 = 0) (miss : findPid k.tab pid = none → result = (k.tab, -1)) :
    ReachesLive k.tab pid result ↔ (∀ p, (k.tab.proc p).pid = pid → (k.tab.proc p).state ≠ .unused) ∧
      ∀ p, HasPid k.tab pid p → ∀ q ≠ p, result.1.proc q = k.tab.proc q := by
  constructor
  · intro reaches
    refine ⟨fun p isPid unused => ?_, reaches.only⟩
    -- some slot is found, so the call returns 0: some process in use has the pid, and it is the slot found
    obtain ⟨q, found⟩ : ∃ q, findPid k.tab pid = some q :=
      Option.ne_none_iff_exists'.1 fun none => findPid_none none p isPid
    obtain ⟨r, has⟩ := reaches.zero.1 (hit q found)
    have used : k.stage r ≠ .unused := by
      rw [Kernel.stage]
      cases is : (k.tab.proc r).state <;> simp_all [ProcState.stage, HasPid]
    exact has.1 (named.own r p used (isPid.trans has.2.symm) ▸ unused)
  · rintro ⟨live, only⟩
    refine ⟨⟨fun zero => ?_, fun one => one.elim fun p has => hit p (findPid_of_has named has)⟩, only, fun nobody => miss ?_⟩
    · cases found : findPid k.tab pid with
      | none => simp [miss found] at zero
      | some p => exact ⟨p, live p (findPid_some found), findPid_some found⟩
    · by_contra some
      obtain ⟨p, found⟩ := Option.ne_none_iff_exists'.1 some
      exact nobody ⟨p, live p (findPid_some found), findPid_some found⟩

/-- **Whom `kill` and `sigsend` reach.** In every state that a run of the kernel reaches, `sigsend` touches one process
in use or nothing if and only if no unused slot holds the pid. For `kill` the pid must moreover not name a sleeper while
`rrqueue` holds a process: the push then sets `rrnext` of the last one. -/
theorem kill_sigsend_live_iff (b : Build) {tr : List (Kernel ncpu × Event ncpu)} (run : Run (step b) (boot b ncpu) tr k)
    (pid : Int) :
    (ReachesLive k.tab pid (kill b k.tab pid) ↔
      (∀ p, (k.tab.proc p).pid = pid → (k.tab.proc p).state ≠ .unused) ∧
      (b.queued = true → k.tab.last ≠ none → ∀ p, (k.tab.proc p).pid = pid → (k.tab.proc p).state ≠ .sleeping)) ∧
    ∀ signum : Int, 0 ≤ signum → signum ≤ 30 → (ReachesLive k.tab pid (sigsend k.tab pid signum) ↔
      ∀ p, (k.tab.proc p).pid = pid → (k.tab.proc p).state ≠ .unused) := by
  have named := run_named run
  obtain ⟨l, ready, _⟩ := (run_good run).queue
  refine ⟨(reachesLive_iff named ?_ ?_).trans (and_congr_right fun live => ?_),
    fun signum low high => (reachesLive_iff named ?_ ?_).trans (and_iff_left fun p has q ne => ?_)⟩
  · intro p found
    unfold kill
    rw [found]
  · intro found
    unfold kill
    rw [found]
  · constructor
    · intro only queued last p isPid asleep
      have found := findPid_of_has named ⟨live p isPid, isPid⟩
      exact (kill_others_iff ready found).1 (only p ⟨live p isPid, isPid⟩) ⟨queued, last, asleep⟩
    · intro awake p has
      refine (kill_others_iff ready (findPid_of_has named has)).2 ?_
      rintro ⟨queued, last, asleep⟩
      exact awake queued last p has.2 asleep
  · intro p found
    unfold sigsend
    rw [if_neg (by omega), found]
  · intro found
    unfold sigsend
    rw [if_neg (by omega), found]
  · exact sigsend_other low high (findPid_of_has named has) ne

/-- The first process forks. -/
def forks : List (Event 1) := [.schedule 0, .resume 0, .allocproc 0, .forkDone 0]

/-- The child is `RUNNABLE`, alone in the queue: `kill` of its pid changes its slot only, and so does `sigsend`. -/
theorem kill_sigsend_live_forks : ∃ k, Run (step .frr) (boot .frr 1) (record (step .frr) (boot .frr 1) forks) k ∧
    HasPid k.tab 2 1 ∧ ReachesLive k.tab 2 (kill .frr k.tab 2) ∧ ReachesLive k.tab 2 (sigsend k.tab 2 30) := by
  have final : (exec (step .frr) (boot .frr 1) forks).map (fun k =>
      decide ((∀ p, (k.tab.proc p).pid = 2 → (k.tab.proc p).state = .runnable) ∧ (k.tab.proc 1).state ≠ .unused ∧
        (k.tab.proc 1).pid = 2)) = some true := by decide +kernel
  obtain ⟨k, done, facts⟩ := Option.map_eq_some_iff.1 final
  obtain ⟨live, child⟩ := of_decide_eq_true facts
  have used (p : Slot) (isPid : (k.tab.proc p).pid = 2) : (k.tab.proc p).state ≠ .unused := by simp [live p isPid]
  obtain ⟨kills, sends⟩ := kill_sigsend_live_iff .frr (run_of_exec done) 2
  exact ⟨k, run_of_exec done, child, kills.2 ⟨used, fun _ _ p isPid => by simp [live p isPid]⟩,
    (sends 30 (by decide) (by decide)).2 used⟩

/-- Right after the boot `kill(0)` finds a slot that was never used, sets its flag and reports success, and
`sigsend(0, 5)` leaves it a signal. The process that `fork` puts there next is killed before it runs. -/
theorem kill_zero_hits_unused : ¬ ReachesLive (boot .frr 1).tab 0 (kill .frr (boot .frr 1).tab 0) ∧
    ¬ ReachesLive (boot .frr 1).tab 0 (sigsend (boot .frr 1).tab 0 5) ∧
    (exec (step .frr) (boot .frr 1) [.schedule 0, .resume 0, .kill 0 0, .sigsend 0 0 5, .allocproc 0, .forkDone 0]).map
      (fun k => ((k.tab.proc 1).pid, (k.tab.proc 1).killed, (k.tab.proc 1).pending)) = some (2, true, 32) := by
  have nobody : ∀ p, ¬ HasPid (boot .frr 1).tab 0 p := by
    have each : ∀ p, ((boot .frr 1).tab.proc p).state = .unused ∨ ((boot .frr 1).tab.proc p).pid ≠ 0 := by decide +kernel
    rintro p ⟨use, isZero⟩
    exact (each p).elim use fun other => other isZero
  refine ⟨fun reaches => ?_, fun reaches => ?_, by decide +kernel⟩
  · obtain ⟨p, has⟩ := reaches.zero.1 (by decide +kernel)
    exact nobody p has
  · obtain ⟨p, has⟩ := reaches.zero.1 (by decide +kernel)
    exact nobody p has

end Xv6.Sched
