import Xv6.Sched.Invariant

/-!
# Every step keeps the invariant

One lemma for each function that a step runs, from the rules of `Good`. The one
step that can break completeness is `sigsend` to a sleeper (`SigsendAwake`).
-/

namespace Xv6.Sched

open Xv6.Lib
open Function (update update_of_ne update_self)

variable {ncpu : Nat} {full : Prop} {b : Build} {k k' : Kernel ncpu} {c : Fin ncpu} {p : Slot}

/-- A signal that `sigsend` accepts does not go to a sleeping process. -/
def SigsendAwake (k : Kernel ncpu) (e : Event ncpu) : Prop :=
  ∀ c pid signum p, e = .sigsend c pid signum → 0 ≤ signum → signum < 31 → findPid k.tab pid = some p →
    (k.tab.proc p).state ≠ .sleeping

/-- The current process runs. -/
theorem current_run (current : k.current c = some p) : k.cpu c = .run p := by
  unfold Kernel.current at current
  split at current
  · rename_i q at_
    split_ifs at current
    rw [at_, Option.some.inj current]
  · cases current

/-- The child that the scan of `wait` stops at is a zombie child. -/
theorem waitScan_some {t : Table} {me q : Slot} {havekids kids : Bool} {ps : List Slot}
    (found : waitScan t me ps havekids = (some q, kids)) : (t.proc q).parent = some me ∧ (t.proc q).state = .zombie := by
  induction ps generalizing havekids with
  | nil => cases found
  | cons r ps ih =>
    unfold waitScan at found
    split_ifs at found with other dead
    · exact ih found
    · cases found
      exact ⟨not_not.1 other, dead⟩
    · exact ih found

/-- A round of the loop of `wait` or `wait_stat`. -/
theorem waitBody_good (inv : Inv b full k) (mine : k.lock = none ∨ k.lock = some c)
    (current : k.cpu c = .run p ∨ k.cpu c = .switchTo p) {clear : Proc → Proc} (r : Resume)
    (unused : ∀ q, (clear q).state = .unused) (next : ∀ q, (clear q).rrnext = q.rrnext)
    (prev : ∀ q, (clear q).rrprev = q.rrprev) : Inv b full (waitBody k c p clear r) := by
  have running : (k.tab.proc p).state = .running := by
    rcases current with at_ | at_
    exacts [inv.run c p at_, (inv.switchTo c p at_).1]
  unfold waitBody
  split
  · rename_i q _ found
    have dead := (waitScan_some found).2
    have good := inv.release mine current
    exact good.modify_idle clear (by rw [dead]; decide) (by rw [unused]; decide) (next _) (prev _)
      (good.idle (by rw [dead]; decide)) (good.not_child (by rw [dead]; decide))
  · split_ifs
    · exact inv.release mine current
    · obtain ⟨good, idle⟩ := inv.enterSched mine current
      exact good.modify_idle (fun q => { q with chan := .proc p, state := .sleeping }) (by rw [running]; decide)
        (by simp) rfl rfl idle (inv.not_child (by rw [running]; decide))

/-- What a round of the scheduler can do on a ready queue: hand out tickets, and release the lock
or switch to a queued process. -/
theorem schedule_cases {l : List Slot} (ready : Ready k.tab l) (b : Build) (c : Fin ncpu) :
    ∃ t total g, SameQueue k.tab t ∧
      (schedule b k c = some { k with tab := t, totalTickets := total, rng := g } ∨
        ∃ q ∈ l, schedule b k c = some
          { k with tab := (removeProcFromRRqueue t q).modify q fun r => { r with state := .running },
                   totalTickets := total, rng := g, lock := some c, cpu := update k.cpu c (.switchTo q) }) := by
  obtain ⟨t, total, delivered, same⟩ := deliver_ready b ready
  obtain ⟨q, g, picked, inside⟩ := pick_ready (same.ready ready) total k.rng
  refine ⟨t, total, g, same, ?_⟩
  unfold schedule
  simp only [delivered, picked, Option.bind_eq_bind, Option.bind_some]
  cases q with
  | none => exact .inl rfl
  | some q => exact .inr ⟨q, inside q rfl, rfl⟩

/-- A queued process is taken off the queue and set `RUNNING`. -/
theorem Good.dispatch {tab : Table} {lock : Option (Fin ncpu)} {cpu : Fin ncpu → Ctx} {np : Slot → Option Slot}
    (good : Good b full tab lock cpu np) {q : Slot} (awake : (tab.proc q).state = .runnable) :
    Good b full ((removeProcFromRRqueue tab q).modify q fun r => { r with state := .running }) lock cpu np := by
  obtain ⟨l, ready, complete, empty⟩ := good.queue
  have off : q ∉ l.erase q := ready.links.nodup.not_mem_erase
  have erased : Ready (removeProcFromRRqueue tab q) (l.erase q) :=
    ⟨ready.links.remove q, fun r member => by rw [remove_state]; exact ready.runnable r (List.mem_of_mem_erase member)⟩
  have states (r : Slot) (different : r ≠ q) : (((removeProcFromRRqueue tab q).modify q fun r =>
      { r with state := .running }).proc r).state = (tab.proc r).state := by
    rw [modify_proc_ne _ q _ different, remove_state]
  refine good.table ⟨l.erase q, erased.modify_off off _ rfl rfl, fun isFull r runnable => ?_,
    fun unqueued => by rw [empty unqueued]; rfl⟩ (fun c' r _ running => ?_) (fun r r' _ embryo => ?_)
  · have different : r ≠ q := by rintro rfl; simp at runnable
    rw [states r different] at runnable
    exact (List.mem_erase_of_ne different).2 (complete isFull r runnable)
  · have different : r ≠ q := by rintro rfl; rw [awake] at running; cases running
    rw [states r different]; exact running
  · have different : r' ≠ q := by rintro rfl; rw [awake] at embryo; cases embryo
    rw [states r' different]; exact embryo

section
variable (keep : full → b.queued = true) (inv : Inv b full k)
include keep inv

/-- A round of the scheduler of a queue kernel. -/
theorem schedule_good (free : k.lock = none) (taken : schedule b k c = some k') : Inv b full k' := by
  obtain ⟨l, ready, _⟩ := inv.queue
  obtain ⟨t, total, g, same, released | ⟨q, queued, switched⟩⟩ := schedule_cases ready b c
  · rw [released] at taken
    cases taken
    exact inv.wakes keep same.wakes
  · rw [switched] at taken
    cases taken
    have tickets := inv.wakes keep same.wakes
    have awake : (t.proc q).state = .runnable := (same.ready ready).runnable q queued
    refine (tickets.dispatch awake).setCpu (.inl free) (.switchTo q) (by simp) ?_ (by simp) (by simp) ?_
    · rintro _ ⟨⟩; exact ⟨by simp, rfl⟩
    · rintro _ ⟨⟩ c' _
      exact tickets.not_current free (by rw [awake]; decide) c'

/-- A process that has been switched to goes on. -/
theorem resume_good (current : k.cpu c = .switchTo p) : Inv b full (resume k c p) := by
  have mine : k.lock = some c := (inv.switchTo c p current).2
  have woken : Wakes b k.tab (k.tab.modify p fun q => { q with chan := .null }) := .modify k.tab p _ rfl rfl rfl
  have awake : Inv b full { k with tab := k.tab.modify p fun q => { q with chan := .null } } := inv.wakes keep woken
  unfold resume
  dsimp only
  cases k.resume p with
  | forkret | yield => exact inv.release (.inr mine) (.inr current)
  | sleep => exact awake.release (.inr mine) (.inr current)
  | wait => exact waitBody_good awake (.inr mine) (.inr current) _ (fun _ => rfl) (fun _ => rfl) (fun _ => rfl)
  | waitStat => exact waitBody_good awake (.inr mine) (.inr current) _ (fun _ => rfl) (fun _ => rfl) (fun _ => rfl)

/-- The running process gives up its CPU as `RUNNABLE`. -/
theorem yield_good (free : k.lock = none) (current : k.cpu c = .run p) :
    Inv b full ({ k with tab := makeRunnable b k.tab p }.enterSched c p .yield) := by
  have running := inv.run c p current
  obtain ⟨good, idle⟩ := inv.enterSched (.inl free) (.inl current)
  exact good.makeRunnable keep (by rw [running]; decide) idle (inv.not_child (by rw [running]; decide))

/-- The running process leaves its CPU in a state other than `RUNNABLE`, after waking others. -/
theorem leave_good (free : k.lock = none) (current : k.cpu c = .run p) {tab : Table}
    (wakes : Wakes b k.tab tab) (f : Proc → Proc) (r : Resume) (state : (f (tab.proc p)).state ≠ .runnable)
    (next : (f (tab.proc p)).rrnext = (tab.proc p).rrnext) (prev : (f (tab.proc p)).rrprev = (tab.proc p).rrprev) :
    Inv b full ({ k with tab := tab.modify p f }.enterSched c p r) := by
  have good := inv.wakes keep wakes
  have running : (tab.proc p).state = .running := good.run c p current
  obtain ⟨good', idle⟩ := good.enterSched (.inl free) (.inl current)
  exact good'.modify_idle f (by rw [running]; decide) state next prev idle (good.not_child (by rw [running]; decide))

theorem exit_good (free : k.lock = none) (current : k.cpu c = .run p) :
    Inv b full (exit b k c p) := by
  have wakes : Wakes b k.tab _ := (Wakes.wakeup1 (.ofProc (k.tab.proc p).parent) k.tab).trans (.reparent p k.initproc _)
  exact leave_good keep inv free current wakes (fun q => { q with state := .zombie, ttime := k.ticks }) .yield
    (by simp) rfl rfl

theorem sigsend_good (pid signum : Int)
    (awake : full → SigsendAwake k (.sigsend c pid signum)) :
    Inv b full { k with tab := (sigsend k.tab pid signum).1 } := by
  by_cases calm : 0 ≤ signum → signum < 31 → ∀ q, findPid k.tab pid = some q → (k.tab.proc q).state ≠ .sleeping
  · by_cases valid : signum ≥ 31 ∨ signum < 0
    · have : (sigsend k.tab pid signum).1 = k.tab := by simp [sigsend, valid]
      rw [this]; exact inv
    · exact inv.wakes keep (.sigsend k.tab pid signum (calm (by omega) (by omega)))
  · -- the signal wakes a sleeper, which stays off the queue
    have partly : ¬ full := fun isFull => calm fun low high q found => awake isFull c pid signum q rfl low high found
    push Not at calm
    obtain ⟨low, high, q, found, asleep⟩ := calm
    obtain ⟨l, ready, _, empty⟩ := inv.queue
    have off : q ∉ l := ready.not_mem (by rw [asleep]; decide)
    have sent : (sigsend k.tab pid signum).1 = (k.tab.modify q fun r =>
        { r with pending := r.pending ||| (1#32 <<< signum.toNat) }).modify q fun r => { r with state := .runnable } := by
      simp only [sigsend, show ¬ (signum ≥ 31 ∨ signum < 0) by omega, if_false, found, modify_proc_self, asleep, if_true]
    have good := inv.wakes keep (.modify k.tab q (fun r =>
        { r with pending := r.pending ||| (1#32 <<< signum.toNat) }) rfl rfl rfl)
    have ready' : Ready ((k.tab.modify q fun r =>
        { r with pending := r.pending ||| (1#32 <<< signum.toNat) }).modify q fun r => { r with state := .runnable }) l :=
      (ready.modify_off off _ rfl rfl).modify_off off _ rfl rfl
    rw [sent]
    refine good.table ⟨l, ready', fun isFull => absurd isFull partly, empty⟩ (fun c' r _ running => ?_) (fun r r' _ embryo => ?_)
    · have different : r ≠ q := by rintro rfl; simp [asleep] at running
      rw [modify_proc_ne _ q _ different]; exact running
    · have different : r' ≠ q := by rintro rfl; simp [asleep] at embryo
      rw [modify_proc_ne _ q _ different]; exact embryo

end

theorem allocproc_good (inv : Inv b full k) (p : Slot) : Inv b full (allocproc k p) := by
  unfold allocproc
  split
  · exact inv
  · rename_i q found
    have unused : (k.tab.proc q).state = .unused := by simpa using List.find?_some found
    have off := inv.not_child (p := q) (by rw [unused]; decide)
    have good := Good.modify_idle inv (fun r => { r with state := .embryo, pid := k.nextpid, ctime := k.ticks })
      (by rw [unused]; decide) (by simp) rfl rfl (inv.idle (by rw [unused]; decide)) off
    refine { good with child := fun r s new => ?_, childOne := fun r r' s new new' => ?_ }
    · by_cases same : r = p
      · subst same
        have : q = s := by simpa using new
        subst this; simp
      · exact good.child r s (by simpa [update_of_ne same] using new)
    · by_cases same : r = p <;> by_cases same' : r' = p
      · rw [same, same']
      · subst same
        simp only [update_self, update_of_ne same'] at new new'
        cases new; exact absurd new' (off r')
      · subst same'
        simp only [update_self, update_of_ne same] at new new'
        cases new'; exact absurd new (off r)
      · simp only [update_of_ne same, update_of_ne same'] at new new'
        exact inv.childOne r r' s new new'

/-- A finished or failed `fork` forgets the child. -/
theorem Good.forget {tab : Table} {lock : Option (Fin ncpu)} {cpu : Fin ncpu → Ctx} {np : Slot → Option Slot}
    (good : Good b full tab lock cpu np) (p : Slot) : Good b full tab lock cpu (update np p none) := by
  refine { good with child := fun q r new => ?_, childOne := fun q q' r new new' => ?_ }
  · by_cases same : q = p
    · subst same; simp at new
    · exact good.child q r (by simpa [update_of_ne same] using new)
  · by_cases same : q = p
    · subst same; simp at new
    · by_cases same' : q' = p
      · subst same'; simp at new'
      · simp only [update_of_ne same, update_of_ne same'] at new new'
        exact good.childOne q q' r new new'

/-- The child of an unfinished `fork` belongs to nobody else. -/
theorem child_off (inv : Inv b full k) {q : Slot} (new : k.np p = some q) :
    ∀ r, update k.np p none r ≠ some q := by
  intro r other
  by_cases same : r = p
  · subst same; simp at other
  · exact same (inv.childOne r p q (by simpa [update_of_ne same] using other) new)

theorem forkFail_good (inv : Inv b full k) {q : Slot} (new : k.np p = some q) :
    Inv b full { k with tab := k.tab.modify q fun r => { r with state := .unused }, np := update k.np p none } := by
  have embryo := inv.child p q new
  exact (inv.forget p).modify_idle (fun r => { r with state := .unused }) (by rw [embryo]; decide) (by simp) rfl rfl
    (inv.idle (by rw [embryo]; decide)) (child_off inv new)

theorem forkDone_good (keep : full → b.queued = true) (inv : Inv b full k) {q : Slot} (new : k.np p = some q) :
    Inv b full (forkDone b k p q) := by
  have filled := inv.wakes keep (.modify k.tab q (fun r =>
    { r with parent := some p, runQuanta := 0, rutime := 0, ctime := k.ticks, ttime := 0, stime := 0,
             retime := 0, priority := (k.tab.proc p).priority }) rfl rfl rfl)
  have embryo := filled.child p q new
  exact (filled.forget p).makeRunnable keep (by rw [embryo]; decide) (filled.idle (by rw [embryo]; decide))
    (child_off inv new)

/-- What it takes for a guarded step of the current process to succeed. -/
theorem guarded {α β : Type} {x : Option α} {P : α → Prop} [DecidablePred P] {f : α → β} {r : β}
    (taken : (do let a ← x; guard (P a); return f a) = some r) : ∃ a, x = some a ∧ P a ∧ f a = r := by
  cases x with
  | none => cases taken
  | some a =>
    by_cases holds : P a
    · exact ⟨a, rfl, holds, by simpa [guard, holds] using taken⟩
    · simp [guard, holds] at taken

/-- The process that the scan of the `DEFAULT` scheduler finds is set `RUNNING`. -/
theorem scan_dispatch_good (inv : Inv b full k) (mine : k.lock = some c) (unqueued : b.queued = false)
    (awake : (k.tab.proc p).state = .runnable) :
    Inv b full { k.setCpu c (.switchTo p) with tab := k.tab.modify p fun q => { q with state := .running } } := by
  obtain ⟨l, ready, complete, empty⟩ := inv.queue
  obtain rfl := empty unqueued
  have partly : full → False := fun isFull => List.not_mem_nil (complete isFull p awake)
  have ready' : Ready (k.tab.modify p fun q => { q with state := .running }) [] := ready.modify_off (by simp) _ rfl rfl
  have good : Good b full (k.tab.modify p fun q => { q with state := .running }) k.lock k.cpu k.np := by
    refine inv.table ⟨[], ready', fun isFull => (partly isFull).elim, fun _ => rfl⟩ ?_ ?_
    · intro c' q _ running
      have different : q ≠ p := by rintro rfl; rw [awake] at running; cases running
      rw [modify_proc_ne _ p _ different]; exact running
    · intro r q _ embryo
      have different : q ≠ p := by rintro rfl; rw [awake] at embryo; cases embryo
      rw [modify_proc_ne _ p _ different]; exact embryo
  refine good.setCpu (.inr mine) (.switchTo p) (by simp) ?_ (by simp) (by simp) ?_
  · rintro _ ⟨⟩; exact ⟨by simp, mine⟩
  · rintro _ ⟨⟩ c' different here
    have idle := inv.idle (p := p) (by rw [awake]; decide) c'
    cases at_ : k.cpu c' with
    | sched => rw [at_] at here; cases here
    | scan i => rw [at_] at here; cases here
    | run q => rw [at_] at here; cases here; exact idle.1 at_
    | switchTo q => rw [at_] at here; cases here; exact idle.2 at_
    | switchFrom q => exact different (Option.some.inj ((inv.switchFrom c' q at_).symm.trans mine))

/-- The scan of the `DEFAULT` scheduler. -/
theorem scan_good (inv : Inv b full k) {i : Nat} (at_ : k.cpu c = .scan i) : Inv b full (scan k c i) := by
  obtain ⟨mine, unqueued⟩ := inv.scan c i at_
  unfold scan
  split
  · rename_i inside
    dsimp only
    split
    · exact inv.setCpu (.inr mine) (.scan (i + 1)) (by simp) (by simp) (by simp) (fun _ _ => ⟨mine, unqueued⟩)
        (by rintro _ ⟨⟩)
    · rename_i other
      exact scan_dispatch_good inv mine unqueued (not_not.1 other)
  · exact inv.setCpu (.inr mine) .sched (by simp) (by simp) (by simp) (by simp) (by rintro _ ⟨⟩)

/-- What a step does, and what it takes. -/
inductive Step (b : Build) (k : Kernel ncpu) : Event ncpu → Kernel ncpu → Prop where
  | schedule {c : Fin ncpu} {k' : Kernel ncpu} (free : k.lock = none) (idle : k.cpu c = .sched)
      (round : schedule b k c = some k') : Step b k (.schedule c) k'
  | rescan {c : Fin ncpu} (free : k.lock = none) (idle : k.cpu c = .sched) (unqueued : b.queued = false) :
      Step b k (.schedule c) { k.setCpu c (.scan 0) with lock := some c }
  | scan {c : Fin ncpu} {i : Nat} (at_ : k.cpu c = .scan i) : Step b k (.scan c) (scan k c i)
  | resume {c : Fin ncpu} {p : Slot} (at_ : k.cpu c = .switchTo p) : Step b k (.resume c) (resume k c p)
  | back {c : Fin ncpu} {p : Slot} (at_ : k.cpu c = .switchFrom p) : Step b k (.back c) (k.release c .sched)
  | backScan {c : Fin ncpu} {p : Slot} (at_ : k.cpu c = .switchFrom p) (unqueued : b.queued = false) :
      Step b k (.back c) (k.setCpu c (.scan (p + 1)))
  | yield {c : Fin ncpu} {p : Slot} (free : k.lock = none) (at_ : k.cpu c = .run p) :
      Step b k (.yield c) ({ k with tab := makeRunnable b k.tab p }.enterSched c p .yield)
  | sleep {c : Fin ncpu} {chan : Chan} {p : Slot} (free : k.lock = none) (current : k.current c = some p) :
      Step b k (.sleep c chan)
        ({ k with tab := k.tab.modify p fun q => { q with chan := chan, state := .sleeping } }.enterSched c p .sleep)
  | wakeup {c : Fin ncpu} {chan : Chan} : Step b k (.wakeup c chan) { k with tab := wakeup1 b chan k.tab }
  | kill {c : Fin ncpu} {pid : Int} : Step b k (.kill c pid) { k with tab := (kill b k.tab pid).1 }
  | sigsend {c : Fin ncpu} {pid signum : Int} : Step b k (.sigsend c pid signum) { k with tab := (sigsend k.tab pid signum).1 }
  | exit {c : Fin ncpu} {p : Slot} (free : k.lock = none) (notInit : p ≠ k.initproc) (current : k.current c = some p) :
      Step b k (.exit c) (exit b k c p)
  | wait {c : Fin ncpu} {p : Slot} (free : k.lock = none) (current : k.current c = some p) :
      Step b k (.wait c) (waitBody k c p reap .wait)
  | waitStat {c : Fin ncpu} {p : Slot} (free : k.lock = none) (current : k.current c = some p) :
      Step b k (.waitStat c) (waitBody k c p reapStat .waitStat)
  | allocproc {c : Fin ncpu} {p : Slot} : Step b k (.allocproc c) (allocproc k p)
  | forkFail {c : Fin ncpu} {p q : Slot} (new : k.np p = some q) : Step b k (.forkFail c)
      { k with tab := k.tab.modify q fun r => { r with state := .unused }, np := update k.np p none }
  | forkDone {c : Fin ncpu} {p q : Slot} (at_ : k.cpu c = .run p) (new : k.np p = some q) :
      Step b k (.forkDone c) (forkDone b k p q)
  | tick {c : Fin ncpu} :
      Step b k (.tick c) { k with tab := advanceprocstats (wakeup1 b .ticks k.tab), ticks := k.ticks + 1 }
  | advanceprocstats {c : Fin ncpu} : Step b k (.advanceprocstats c) { k with tab := advanceprocstats k.tab }
  | priority {c : Fin ncpu} {n : Int} {p : Slot} :
      Step b k (.priority c n) { k with tab := k.tab.modify p fun q => { q with priority := n } }

theorem step_cases {e : Event ncpu} (taken : step b k e = some k') : Step b k e k' := by
  cases e with
  | schedule c =>
    simp only [step] at taken
    split_ifs at taken with ready queued
    · exact .schedule ready.1 ready.2 taken
    · cases taken
      exact .rescan ready.1 ready.2 (by simpa using queued)
  | scan c | resume c =>
    simp only [step] at taken
    split at taken <;> cases taken
    constructor
    assumption
  | back c =>
    simp only [step] at taken
    split at taken
    · rename_i p at_
      split_ifs at taken with queued <;> cases taken
      · exact .back at_
      · exact .backScan at_ (by simpa using queued)
    · cases taken
  | yield c =>
    simp only [step] at taken
    split at taken
    · rename_i p at_
      split_ifs at taken with free
      cases taken
      exact .yield free at_
    · cases taken
  | sleep c chan | wait c | waitStat c =>
    obtain ⟨p, current, free, rfl⟩ := guarded taken
    constructor <;> assumption
  | exit c =>
    obtain ⟨p, current, free, rfl⟩ := guarded taken
    exact .exit free.1 free.2 current
  | kill c pid | sigsend c pid signum | allocproc c =>
    obtain ⟨_, _, _, rfl⟩ := guarded taken
    constructor
  | wakeup c chan | tick c =>
    simp only [step] at taken
    split_ifs at taken
    cases taken
    constructor
  | forkFail c =>
    simp only [step] at taken
    split at taken
    · obtain ⟨q, new, rfl⟩ := Option.map_eq_some_iff.1 taken
      exact .forkFail new
    · cases taken
  | forkDone c =>
    simp only [step] at taken
    split at taken
    · rename_i p at_
      split_ifs at taken
      obtain ⟨q, new, rfl⟩ := Option.map_eq_some_iff.1 taken
      exact .forkDone at_ new
    · cases taken
  | advanceprocstats c | priority c n =>
    obtain ⟨_, _, rfl⟩ := Option.map_eq_some_iff.1 taken
    constructor

/-- **Every step keeps the invariant**; completeness, in a queue kernel, if no signal wakes a sleeper. -/
theorem step_good (keep : full → b.queued = true) (inv : Inv b full k) {e : Event ncpu} (awake : full → SigsendAwake k e)
    (taken : step b k e = some k') : Inv b full k' := by
  cases step_cases taken with
  | schedule free _ round => exact schedule_good keep inv free round
  | rescan free _ unqueued =>
    exact inv.setCpu (.inl free) (.scan 0) (by simp) (by simp) (by simp) (fun _ _ => ⟨rfl, unqueued⟩) (by rintro _ ⟨⟩)
  | scan at_ => exact scan_good inv at_
  | resume at_ => exact resume_good keep inv at_
  | back at_ =>
    exact inv.setCpu (.inr (inv.switchFrom _ _ at_)) .sched (by simp) (by simp) (by simp) (by simp) (by rintro _ ⟨⟩)
  | @backScan c p at_ unqueued =>
    have mine := inv.switchFrom _ _ at_
    exact inv.setCpu (.inr mine) (.scan (p + 1)) (by simp) (by simp) (by simp) (fun _ _ => ⟨mine, unqueued⟩)
      (by rintro _ ⟨⟩)
  | yield free at_ => exact yield_good keep inv free at_
  | @sleep c chan p free current =>
    exact leave_good keep inv free (current_run current) (.refl _)
      (fun q => { q with chan := chan, state := .sleeping }) .sleep (by simp) rfl rfl
  | wakeup => exact inv.wakes keep (.wakeup1 _ k.tab)
  | kill => exact inv.wakes keep (.kill k.tab _)
  | sigsend => exact sigsend_good keep inv _ _ awake
  | exit free _ current => exact exit_good keep inv free (current_run current)
  | wait free current | waitStat free current =>
    exact waitBody_good inv (.inl free) (.inl (current_run current)) _ (fun _ => rfl) (fun _ => rfl) (fun _ => rfl)
  | allocproc => exact allocproc_good inv _
  | forkFail new => exact forkFail_good inv new
  | forkDone _ new => exact forkDone_good keep inv new
  | tick => exact inv.wakes keep ((Wakes.wakeup1 .ticks k.tab).trans (.advanceprocstats _))
  | advanceprocstats => exact inv.wakes keep (.advanceprocstats k.tab)
  | @priority c n p =>
    have wakes : Wakes b k.tab (k.tab.modify p fun q => { q with priority := n }) := .modify k.tab p _ rfl rfl rfl
    exact inv.wakes keep wakes

end Xv6.Sched
