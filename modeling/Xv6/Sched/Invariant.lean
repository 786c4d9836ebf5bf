import Xv6.Sched.Draw

/-!
# The queue through every step

`Inv` ties the queue to the states of the processes and these to what the CPUs
run. It holds in every state of every run of a queue kernel, also while
`ptable.lock` is held between the two halves of a context switch. The lottery
loops reach their ends because the queue is a finite list.
-/

namespace Xv6.Sched

open Xv6.Lib

/-! ## The lottery on a ready queue -/

/-- **Delivery** comes to an end on a ready queue, and keeps it. -/
theorem deliver_ready (b : Build) {t : Table} {l : List Slot} (ready : Ready t l) :
    ∃ t' total, deliverTicketsToFIFOProcs b t = some (t', total) ∧ SameQueue t t' := by
  rcases eq_or_ne l [] with rfl | nonempty
  · have empty : t.last = none := ready.links.last_eq
    exact ⟨t, 0, by simp [deliverTicketsToFIFOProcs, deliverTicketsIn, empty], .refl t⟩
  · cases queued : b.queued with
    | true => exact ⟨_, _, deliver_eq queued ready nonempty, assign_same ..⟩
    | false =>
      obtain rfl : b = .default := by cases b <;> simp_all [Build.queued]
      refine ⟨t, 0, ?_, .refl t⟩
      unfold deliverTicketsToFIFOProcs deliverTicketsIn
      split <;> rfl

/-- The search comes to an end on a ready queue, and finds only queued processes. -/
theorem pick_ready {t : Table} {l : List Slot} (ready : Ready t l) (total : Int) (g : Xorshift) :
    ∃ p g', pickProcess t total g = some (p, g') ∧ ∀ q, p = some q → q ∈ l := by
  by_cases positive : 0 < total
  · exact ⟨_, _, pickProcess_find ready positive, fun q found => List.mem_of_find?_eq_some found⟩
  · exact ⟨none, g, if_neg positive, by simp⟩

/-! ## The invariant -/

variable {ncpu : Nat}

/-- The parts of the kernel state that the queue depends on, in agreement. `full` says whether
the queue is meant to be complete; without it nothing is claimed about processes off the queue. The
`DEFAULT` kernel has no queue, and its scheduler scans the table with the lock held. -/
structure Good (b : Build) (full : Prop) (tab : Table) (lock : Option (Fin ncpu)) (cpu : Fin ncpu → Ctx)
    (np : Slot → Option Slot) : Prop where
  queue : ∃ l, Ready tab l ∧ (full → Complete tab l) ∧ (b.queued = false → l = [])
  run : ∀ c p, cpu c = .run p → (tab.proc p).state = .running
  switchTo : ∀ c p, cpu c = .switchTo p → (tab.proc p).state = .running ∧ lock = some c
  switchFrom : ∀ c p, cpu c = .switchFrom p → lock = some c
  scan : ∀ c i, cpu c = .scan i → lock = some c ∧ b.queued = false
  one : ∀ c c' p, (cpu c).proc = some p → (cpu c').proc = some p → c = c'
  child : ∀ p q, np p = some q → (tab.proc q).state = .embryo
  childOne : ∀ p p' q, np p = some q → np p' = some q → p = p'

/-- `Good` of a kernel state. -/
def Inv (b : Build) (full : Prop) (k : Kernel ncpu) : Prop := Good b full k.tab k.lock k.cpu k.np

namespace Good

variable {b : Build} {full : Prop} {tab tab' : Table} {lock lock' : Option (Fin ncpu)} {cpu : Fin ncpu → Ctx}
  {np : Slot → Option Slot} {c : Fin ncpu} {p : Slot}

section
variable (good : Good b full tab lock cpu np)
include good

/-- Another table, as long as running processes keep running and new children stay new. -/
theorem table (queue : ∃ l, Ready tab' l ∧ (full → Complete tab' l) ∧ (b.queued = false → l = []))
    (busy : ∀ c p, cpu c = .run p ∨ cpu c = .switchTo p → (tab.proc p).state = .running →
      (tab'.proc p).state = .running)
    (child : ∀ p q, np p = some q → (tab.proc q).state = .embryo → (tab'.proc q).state = .embryo) :
    Good b full tab' lock cpu np where
  queue := queue
  run c p at_ := busy c p (.inl at_) (good.run c p at_)
  switchTo c p at_ := ⟨busy c p (.inr at_) (good.switchTo c p at_).1, (good.switchTo c p at_).2⟩
  switchFrom := good.switchFrom
  scan := good.scan
  one := good.one
  child p q new := child p q new (good.child p q new)
  childOne := good.childOne

/-- Waking processes. -/
theorem wakes (keep : full → b.queued = true) (wakes : Wakes b tab tab') :
    Good b full tab' lock cpu np := by
  obtain ⟨l, ready, complete, empty⟩ := good.queue
  obtain ⟨l', ready', complete', still⟩ := wakes.queue l ready
  refine good.table ⟨l', ready', fun isFull => complete' (keep isFull) (complete isFull),
    fun unqueued => (still unqueued).trans (empty unqueued)⟩ (fun c p _ running => ?_) (fun p q _ embryo => ?_)
  · rw [wakes.state_eq (by rw [running]; decide), running]
  · rw [wakes.state_eq (by rw [embryo]; decide), embryo]

/-- A change to one process that is off the queue and not on a CPU, and stays off the queue. -/
theorem modify_idle (f : Proc → Proc)
    (off : (tab.proc p).state ≠ .runnable) (off' : (f (tab.proc p)).state ≠ .runnable)
    (next : (f (tab.proc p)).rrnext = (tab.proc p).rrnext) (prev : (f (tab.proc p)).rrprev = (tab.proc p).rrprev)
    (idle : ∀ c, cpu c ≠ .run p ∧ cpu c ≠ .switchTo p) (old : ∀ q, np q ≠ some p) :
    Good b full (tab.modify p f) lock cpu np := by
  obtain ⟨l, ready, complete, empty⟩ := good.queue
  refine good.table ⟨l, ready.modify_off (ready.not_mem off) f next prev, fun isFull q awake => ?_, empty⟩
    (fun c q at_ running => ?_) (fun q r new embryo => ?_)
  · by_cases same : q = p
    · subst same; rw [modify_proc_self] at awake; exact absurd awake off'
    · rw [modify_proc_ne tab p f same] at awake; exact complete isFull q awake
  · have different : q ≠ p := by rintro rfl; rcases at_ with at_ | at_; exacts [(idle c).1 at_, (idle c).2 at_]
    rw [modify_proc_ne tab p f different]; exact running
  · have different : r ≠ p := by rintro rfl; exact old q new
    rw [modify_proc_ne tab p f different]; exact embryo

/-- A CPU that holds the lock, or takes it, goes on as `x`. -/
theorem setCpu (mine : lock = none ∨ lock = some c) (x : Ctx)
    (run : ∀ p, x = .run p → (tab.proc p).state = .running)
    (switchTo : ∀ p, x = .switchTo p → (tab.proc p).state = .running ∧ lock' = some c)
    (switchFrom : ∀ p, x = .switchFrom p → lock' = some c)
    (scan : ∀ i, x = .scan i → lock' = some c ∧ b.queued = false)
    (alone : ∀ p, x.proc = some p → ∀ c', c' ≠ c → (cpu c').proc ≠ some p) :
    Good b full tab lock' (Function.update cpu c x) np := by
  have others : ∀ c', c' ≠ c → lock ≠ some c' := by
    rintro c' different held
    rcases mine with free | mine
    · rw [held] at free; cases free
    · exact different (Option.some.inj (held.symm.trans mine))
  refine ⟨good.queue, fun c' p at_ => ?_, fun c' p at_ => ?_, fun c' p at_ => ?_, fun c' i at_ => ?_,
    fun c1 c2 p at1 at2 => ?_, good.child, good.childOne⟩
  · by_cases same : c' = c
    · subst same; exact run p (by simpa using at_)
    · exact good.run c' p (by simpa [same] using at_)
  · by_cases same : c' = c
    · subst same; exact switchTo p (by simpa using at_)
    · exact absurd (good.switchTo c' p (by simpa [same] using at_)).2 (others c' same)
  · by_cases same : c' = c
    · subst same; exact switchFrom p (by simpa using at_)
    · exact absurd (good.switchFrom c' p (by simpa [same] using at_)) (others c' same)
  · by_cases same : c' = c
    · subst same; exact scan i (by simpa using at_)
    · exact absurd (good.scan c' i (by simpa [same] using at_)).1 (others c' same)
  · by_cases same1 : c1 = c <;> by_cases same2 : c2 = c
    · rw [same1, same2]
    · subst same1
      simp only [Function.update_self, Function.update_of_ne same2] at at1 at2
      exact absurd at2 (alone p at1 c2 same2)
    · subst same2
      simp only [Function.update_self, Function.update_of_ne same1] at at1 at2
      exact absurd at1 (alone p at2 c1 same1)
    · simp only [Function.update_of_ne same1, Function.update_of_ne same2] at at1 at2
      exact good.one c1 c2 p at1 at2

/-- The process on a CPU is on no other. -/
theorem alone (mine : (cpu c).proc = some p) :
    ∀ c', c' ≠ c → (cpu c').proc ≠ some p :=
  fun c' different other => different (good.one c' c p other mine)

/-- The process on a CPU releases the lock and runs on. -/
theorem release (mine : lock = none ∨ lock = some c)
    (current : cpu c = .run p ∨ cpu c = .switchTo p) : Good b full tab none (Function.update cpu c (.run p)) np := by
  have running : (tab.proc p).state = .running := by
    rcases current with at_ | at_
    exacts [good.run c p at_, (good.switchTo c p at_).1]
  have here : (cpu c).proc = some p := by rcases current with at_ | at_ <;> rw [at_] <;> rfl
  refine good.setCpu mine (.run p) ?_ (by simp) (by simp) (by simp) ?_
  · rintro _ ⟨⟩; exact running
  · rintro _ ⟨⟩; exact good.alone here

/-- The process on a CPU calls `sched`; nothing runs it any more. -/
theorem enterSched (mine : lock = none ∨ lock = some c)
    (current : cpu c = .run p ∨ cpu c = .switchTo p) :
    Good b full tab (some c) (Function.update cpu c (.switchFrom p)) np ∧
      ∀ c', Function.update cpu c (.switchFrom p) c' ≠ .run p ∧
        Function.update cpu c (.switchFrom p) c' ≠ .switchTo p := by
  have here : (cpu c).proc = some p := by rcases current with at_ | at_ <;> rw [at_] <;> rfl
  refine ⟨good.setCpu mine (.switchFrom p) (by simp) (by simp) (fun _ _ => rfl) (by simp) ?_, fun c' => ?_⟩
  · rintro _ ⟨⟩; exact good.alone here
  · by_cases same : c' = c
    · subst same; simp
    · have other := good.alone here c' same
      rw [Function.update_of_ne same]
      constructor <;> intro at_ <;> rw [at_] at other <;> exact other rfl

/-- A process that is not `RUNNING` is on no CPU. -/
theorem idle (other : (tab.proc p).state ≠ .running) :
    ∀ c, cpu c ≠ .run p ∧ cpu c ≠ .switchTo p :=
  fun c => ⟨fun at_ => other (good.run c p at_), fun at_ => other (good.switchTo c p at_).1⟩

/-- While the lock is free the current process of every CPU is `RUNNING`. -/
theorem not_current (free : lock = none) (other : (tab.proc p).state ≠ .running) :
    ∀ c, (cpu c).proc ≠ some p := by
  intro c here
  cases at_ : cpu c with
  | sched | scan => rw [at_] at here; cases here
  | run q => rw [at_] at here; cases here; exact other (good.run c p at_)
  | switchTo q => have := (good.switchTo c q at_).2; rw [free] at this; cases this
  | switchFrom q => have := good.switchFrom c q at_; rw [free] at this; cases this

/-- A process that is not an `EMBRYO` is nobody's unfinished child. -/
theorem not_child (other : (tab.proc p).state ≠ .embryo) :
    ∀ q, np q ≠ some p :=
  fun q new => other (good.child q p new)

/-- A process that is off the queue, on no CPU and no unfinished child becomes `RUNNABLE`. -/
theorem makeRunnable (keep : full → b.queued = true)
    (off : (tab.proc p).state ≠ .runnable) (idle : ∀ c, cpu c ≠ .run p ∧ cpu c ≠ .switchTo p)
    (old : ∀ q, np q ≠ some p) : Good b full (makeRunnable b tab p) lock cpu np := by
  obtain ⟨l, ready, complete, empty⟩ := good.queue
  obtain ⟨l', ready', complete', still⟩ := ready.wake b (ready.not_mem off)
  refine good.table ⟨l', ready', fun isFull => complete' (keep isFull) (complete isFull),
    fun unqueued => (still unqueued).trans (empty unqueued)⟩ (fun c q at_ running => ?_) (fun q r new embryo => ?_)
  · have different : q ≠ p := by
      rintro rfl; rcases at_ with at_ | at_
      exacts [(idle c).1 at_, (idle c).2 at_]
    rw [makeRunnable_state, if_neg different]; exact running
  · have different : r ≠ p := by rintro rfl; exact old q new
    rw [makeRunnable_state, if_neg different]; exact embryo

end

end Good

end Xv6.Sched
