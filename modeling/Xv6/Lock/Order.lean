import Xv6.Lib.Locks
import Xv6.Lib.Run
import Xv6.Sched.Table

/-!
# The order of `ptable.lock` and `tickslock`

Every function of the kernel as the sequence of its lock operations, on any
number of CPUs. `allocproc` and `exit` take `tickslock` under `ptable.lock`; the
timer interrupt and `sleep` called by `sys_sleep` take `ptable.lock` under
`tickslock`. Two CPUs that are each past the first of their two acquires wait for
one another forever; as long as that does not happen there is no circular wait.
-/

namespace Xv6.Locking

open Xv6.Lib Xv6.Lib.Locks
open Function (update update_eq_self update_idem)
open Xv6.Sched (Build)

/-- The locks of the process table and the clock. -/
inductive Lock where
  | ptable
  | ticks
  | rrqueue
  deriving DecidableEq, Repr

/-- The lock operations of a piece of code. -/
abbrev Code := List (Instr Lock)

/-! ## The functions of the source -/

/-- A critical section of `rrqueue.lock` with no other lock operation in it. -/
def queueSection : Code := [.acquire .rrqueue, .release .rrqueue]

/-- `pushProcToRRqueue`, which only the queue kernels call. -/
def push (b : Build) : Code := if b.queued then queueSection else []

/-- `wakeup1`, for a channel on which `woken` processes sleep. -/
def wakeup1 (b : Build) (woken : Nat) : Code := (List.replicate woken (push b)).flatten

def wakeup (b : Build) (woken : Nat) : Code := .acquire .ptable :: (wakeup1 b woken ++ [.release .ptable])

/-- What a CPU does with locks after `sched()`: the scheduler, or the process that it switches to next,
releases `ptable.lock`. -/
def sched : Code := [.release .ptable]

/-- Reading `ticks` for `ctime` or `ttime`. -/
def readTicks : Code := [.acquire .ticks, .release .ticks]

def allocproc (found : Bool) : Code :=
  .acquire .ptable :: ((if found then readTicks else []) ++ [.release .ptable])

/-- `fork`, once `allocproc` has found a slot. -/
def fork (b : Build) : Code :=
  allocproc true ++ (readTicks ++ (.acquire .ptable :: (push b ++ [.release .ptable])))

/-- `exit`, which wakes `woken` processes: its parent, and `init` for the zombies it leaves. -/
def exit (b : Build) (woken : Nat) : Code := .acquire .ptable :: (wakeup1 b woken ++ (readTicks ++ sched))

/-- `sleep(&ticks, &tickslock)`. A process that is switched to again continues with the next round of
`sys_sleep`. -/
def sleepTicks : Code := .acquire .ptable :: .release .ticks :: sched

/-- A round of `sys_sleep`: it either sleeps or returns. -/
def sysSleep (sleeps : Bool) : Code := .acquire .ticks :: (if sleeps then sleepTicks else [.release .ticks])

/-- `sleep` on `ptable.lock` or on a lock of another subsystem. -/
def sleepOther : Code := .acquire .ptable :: sched

def yield (b : Build) : Code := .acquire .ptable :: (push b ++ sched)

/-- A round of `scheduler`: `deliverTicketsToFIFOProcs` with `printRRQueue` when the queue is not empty,
`pickProcess`, and the removal of the process found, which releases `ptable.lock` when it runs. -/
def scheduler (b : Build) (filled found : Bool) : Code :=
  .acquire .ptable :: ((if b.queued then
    queueSection ++ ((if filled then queueSection else []) ++ (queueSection ++ (if found then queueSection else [])))
    else []) ++ [.release .ptable])

/-- The timer branch of `trap` on CPU 0. -/
def timer (b : Build) (woken : Nat) : Code := .acquire .ticks :: (wakeup b woken ++ [.release .ticks])

/-- What a CPU can start to execute. -/
inductive Routine where
  | allocproc (found : Bool)
  | fork
  | exit (woken : Nat)
  | sysSleep (sleeps : Bool)
  | sleepOther
  | wakeup (woken : Nat)
  | yield
  | scheduler (filled found : Bool)

def Routine.code (b : Build) : Routine → Code
  | .allocproc found => Locking.allocproc found
  | .fork => Locking.fork b
  | .exit woken => Locking.exit b woken
  | .sysSleep sleeps => Locking.sysSleep sleeps
  | .sleepOther => Locking.sleepOther
  | .wakeup woken => Locking.wakeup b woken
  | .yield => Locking.yield b
  | .scheduler filled found => Locking.scheduler b filled found

/-! ## The CPUs -/

/-- The CPUs and the locks they hold. -/
abbrev Cpus (ncpu : Nat) := Machine Lock (Fin ncpu)

/-- An event on CPU `c`. -/
inductive Event (ncpu : Nat) where
  /-- a routine starts -/
  | start (c : Fin ncpu) (r : Routine)
  /-- the next lock operation -/
  | advance (c : Fin ncpu)
  /-- a timer interrupt: it wakes `woken` sleepers, and the process may have to yield -/
  | interrupt (c : Fin ncpu) (woken : Nat) (yields : Bool)
  /-- the processes that run on two CPUs change places -/
  | migrate (c c' : Fin ncpu)

/-- The CPU holds no lock, so interrupts are enabled. -/
def Idle {ncpu : Nat} (m : Cpus ncpu) (c : Fin ncpu) : Prop := ∀ l, m.holder l ≠ some c

theorem idle_iff {ncpu : Nat} {m : Cpus ncpu} {c : Fin ncpu} :
    m.holder .ptable ≠ some c ∧ m.holder .ticks ≠ some c ∧ m.holder .rrqueue ≠ some c ↔ Idle m c := by
  constructor
  · intro idle l
    cases l with
    | ptable => exact idle.1
    | ticks => exact idle.2.1
    | rrqueue => exact idle.2.2
  · exact fun idle => ⟨idle _, idle _, idle _⟩

instance {ncpu : Nat} (m : Cpus ncpu) (c : Fin ncpu) : Decidable (Idle m c) := decidable_of_iff _ idle_iff

/-- What an interrupt executes on CPU `c`. -/
def interrupt {ncpu : Nat} (b : Build) (c : Fin ncpu) (woken : Nat) (yields : Bool) : Code :=
  (if c.val = 0 then timer b woken else []) ++ (if yields then yield b else [])

def step {ncpu : Nat} (b : Build) (m : Cpus ncpu) : Event ncpu → Option (Cpus ncpu)
  | .start c r => if m.prog c = [] then some ⟨m.holder, update m.prog c (r.code b)⟩ else none
  | .advance c => m.advance c
  | .interrupt c woken yields =>
    if Idle m c then some ⟨m.holder, update m.prog c (interrupt b c woken yields ++ m.prog c)⟩ else none
  | .migrate c c' =>
    if Idle m c ∧ Idle m c' then
      some ⟨m.holder, update (update m.prog c (m.prog c')) c' (m.prog c)⟩
    else none

/-- No lock is held and nothing runs. -/
def boot (ncpu : Nat) : Cpus ncpu := ⟨fun _ => none, fun _ => []⟩

/-! ## Balance -/

section
variable {b : Build} {h : Lock → Bool} {rest : Code}

/-- No lock is taken under `rrqueue.lock`. -/
def leaf (l : Lock) : Bool := l = .rrqueue

theorem balanced_queueSection (free : h .rrqueue = false) (after : Balanced leaf h rest) :
    Balanced leaf h (queueSection ++ rest) := by
  have back : update (update h .rrqueue true) .rrqueue false = h := by
    rw [update_idem, ← free, update_eq_self]
  refine ⟨free, ?_, by simp, ?_⟩
  · intro l inner
    rw [of_decide_eq_true inner]
    exact free
  · rw [back]
    exact after

theorem balanced_push (free : h .rrqueue = false) (after : Balanced leaf h rest) :
    Balanced leaf h (push b ++ rest) := by
  unfold push
  split
  · exact balanced_queueSection free after
  · exact after

theorem balanced_wakeup1 (woken : Nat) (free : h .rrqueue = false) (after : Balanced leaf h rest) :
    Balanced leaf h (wakeup1 b woken ++ rest) := by
  induction woken with
  | zero => exact after
  | succ woken ih =>
    rw [wakeup1, List.replicate_succ, List.flatten_cons, List.append_assoc]
    exact balanced_push free ih

/-- Taking a lock outside of `rrqueue.lock`. -/
theorem balanced_acquire {l : Lock} (free : h l = false) (queue : h .rrqueue = false)
    (after : Balanced leaf (update h l true) rest) : Balanced leaf h (.acquire l :: rest) := by
  refine ⟨free, fun l' inner => ?_, after⟩
  rw [of_decide_eq_true inner]
  exact queue

theorem balanced_ite {c : Prop} [Decidable c] {x y : Code} (left : Balanced leaf h (x ++ rest))
    (right : Balanced leaf h (y ++ rest)) : Balanced leaf h ((if c then x else y) ++ rest) := by
  split <;> assumption

/-- Reading the clock, with or without `ptable.lock` held. -/
theorem balanced_readTicks (free : h .ticks = false) (queue : h .rrqueue = false) (after : Balanced leaf h rest) :
    Balanced leaf h (readTicks ++ rest) := by
  have back : update (update h .ticks true) .ticks false = h := by
    rw [update_idem, ← free, update_eq_self]
  apply balanced_acquire free queue
  refine ⟨by simp, ?_⟩
  rw [back]
  exact after

/-- A critical section of `ptable.lock` on an idle CPU. -/
theorem balanced_ptable {body : Code}
    (inside : ∀ rest, Balanced leaf (update (fun _ => false) .ptable true) rest →
      Balanced leaf (update (fun _ => false) .ptable true) (body ++ rest)) :
    Balanced leaf (fun _ => false) (.acquire .ptable :: (body ++ [.release .ptable])) := by
  apply balanced_acquire rfl rfl
  apply inside
  refine ⟨by simp, fun l => ?_⟩
  cases l <;> rfl

theorem balanced_wakeup (woken : Nat) : Balanced leaf (fun _ => false) (wakeup b woken) :=
  balanced_ptable fun _ => balanced_wakeup1 woken rfl

theorem balanced_allocproc (found : Bool) : Balanced leaf (fun _ => false) (allocproc found) := by
  apply balanced_ptable
  intro rest after
  apply balanced_ite
  · exact balanced_readTicks rfl rfl after
  · exact after

theorem balanced_yield : Balanced leaf (fun _ => false) (yield b) :=
  balanced_ptable fun _ => balanced_push rfl

theorem balanced_timer (woken : Nat) : Balanced leaf (fun _ => false) (timer b woken) := by
  apply balanced_acquire rfl rfl
  rw [wakeup, List.cons_append]
  apply balanced_acquire rfl rfl
  rw [List.append_assoc]
  apply balanced_wakeup1 woken rfl
  refine ⟨by simp, by simp, fun l => ?_⟩
  cases l <;> rfl

theorem balanced_scheduler (filled found : Bool) : Balanced leaf (fun _ => false) (scheduler b filled found) := by
  apply balanced_ptable
  intro rest after
  apply balanced_ite
  · simp only [List.append_assoc]
    apply balanced_queueSection rfl
    apply balanced_ite
    · apply balanced_queueSection rfl
      apply balanced_queueSection rfl
      exact balanced_ite (balanced_queueSection rfl after) after
    · apply balanced_queueSection rfl
      exact balanced_ite (balanced_queueSection rfl after) after
  · exact after

theorem balanced_code (r : Routine) : Balanced leaf (fun _ => false) (r.code b) := by
  cases r with
  | allocproc found => exact balanced_allocproc found
  | fork =>
    apply (balanced_allocproc true).append
    apply balanced_readTicks rfl rfl
    exact balanced_ptable fun _ => balanced_push rfl
  | exit woken =>
    rw [Routine.code, exit, ← List.append_assoc]
    apply balanced_ptable
    intro rest after
    rw [List.append_assoc]
    exact balanced_wakeup1 woken rfl (balanced_readTicks rfl rfl after)
  | sysSleep sleeps =>
    apply balanced_acquire rfl rfl
    cases sleeps with
    | false => exact ⟨by simp, fun l => by cases l <;> rfl⟩
    | true =>
      apply balanced_acquire rfl rfl
      exact ⟨by simp, by simp, fun l => by cases l <;> rfl⟩
  | sleepOther => exact @balanced_ptable [] fun _ => id
  | wakeup woken => exact balanced_wakeup woken
  | yield => exact balanced_yield
  | scheduler filled found => exact balanced_scheduler filled found

theorem balanced_interrupt {ncpu : Nat} (c : Fin ncpu) (woken : Nat) (yields : Bool) :
    Balanced leaf (fun _ => false) (interrupt b c woken yields) := by
  apply balanced_ite
  · apply (balanced_timer woken).append
    split
    · exact balanced_yield
    · exact fun _ => rfl
  · cases yields with
    | false => exact fun _ => rfl
    | true => exact balanced_yield

end

/-! ## No circular wait -/

variable {ncpu : Nat} {b : Build} {m m' : Cpus ncpu} {e : Event ncpu} {c : Fin ncpu}

/-- CPU `c` holds `l` and takes `l'` before it releases `l`. -/
def Window (m : Cpus ncpu) (l l' : Lock) (c : Fin ncpu) : Prop := m.holder l = some c ∧ Ahead l' l (m.prog c)

/-- The two locks that are nested both ways. -/
def Opposed (l l' : Lock) : Prop := (l = .ptable ∧ l' = .ticks) ∨ (l = .ticks ∧ l' = .ptable)

/-- A CPU that takes the first of the two locks, with the second one still to come under it, finds no CPU
that is between the two acquires in the opposite order. -/
def Orderly (m : Cpus ncpu) (e : Event ncpu) : Prop :=
  ∀ c l l' rest, e = .advance c → m.prog c = .acquire l :: rest → Opposed l l' → Ahead l' l rest →
    ∀ c', ¬ Window m l' l c'

/-- What holds in every state of an orderly run. -/
structure Inv (m : Cpus ncpu) : Prop where
  sound : m.Sound leaf
  apart : ∀ c c', ¬ (Window m .ptable .ticks c ∧ Window m .ticks .ptable c')

/-- An instruction opens no window but the one of the lock it takes. -/
theorem window_advance (taken : m.advance c = some m') {l l' : Lock} {d : Fin ncpu} (window : Window m' l l' d) :
    Window m l l' d ∨ d = c ∧ ∃ rest, m.prog c = .acquire l :: rest ∧ Ahead l' l rest := by
  obtain ⟨held, ahead⟩ := window
  obtain ⟨k, rest, ⟨code, free, rfl⟩ | ⟨code, mine, rfl⟩⟩ := Machine.advance_cases taken
  · rcases eq_or_ne l k with rfl | other
    · rw [set_holder_self] at held
      cases held
      rw [set_prog_self] at ahead
      exact .inr ⟨rfl, rest, code, ahead⟩
    · rw [set_holder_ne other] at held
      refine .inl ⟨held, ?_⟩
      rcases eq_or_ne d c with rfl | ne
      · rw [set_prog_self] at ahead
        rw [code]
        exact .inr ahead
      · rwa [set_prog_ne ne] at ahead
  · rcases eq_or_ne l k with rfl | other
    · rw [set_holder_self] at held
      cases held
    · rw [set_holder_ne other] at held
      refine .inl ⟨held, ?_⟩
      rcases eq_or_ne d c with rfl | ne
      · rw [set_prog_self] at ahead
        rw [code]
        exact ⟨other.symm, ahead⟩
      · rwa [set_prog_ne ne] at ahead

theorem Inv.advance (inv : Inv m) (orderly : Orderly m (.advance c)) (taken : m.advance c = some m') : Inv m' := by
  refine ⟨inv.sound.advance taken, ?_⟩
  rintro d d' ⟨one, other⟩
  rcases window_advance taken one with old | ⟨rfl, rest, code, ahead⟩
  · rcases window_advance taken other with old' | ⟨rfl, rest, code, ahead⟩
    · exact inv.apart d d' ⟨old, old'⟩
    · exact orderly d' .ticks .ptable rest rfl code (.inr ⟨rfl, rfl⟩) ahead d old
  · rcases window_advance taken other with old' | ⟨rfl, rest', code', _⟩
    · exact orderly d .ptable .ticks rest rfl code (.inl ⟨rfl, rfl⟩) ahead d' old'
    · cases code.symm.trans code'

/-- A CPU without locks has no window, whatever it is to execute. -/
theorem Inv.setProg (inv : Inv m) (idle : Idle m c) {code : Code} (balanced : Balanced leaf (fun _ => false) code) :
    Inv ⟨m.holder, update m.prog c code⟩ := by
  have kept : ∀ l l' d, Window ⟨m.holder, update m.prog c code⟩ l l' d → Window m l l' d := by
    intro l l' d window
    have ne : d ≠ c := by
      rintro rfl
      exact idle l window.1
    exact ⟨window.1, by simpa [ne] using window.2⟩
  exact ⟨inv.sound.setProg idle balanced, fun d d' windows =>
    inv.apart d d' ⟨kept _ _ _ windows.1, kept _ _ _ windows.2⟩⟩

/-- A CPU with nothing to execute holds no lock. -/
theorem Inv.idle_of_done (inv : Inv m) (done : m.prog c = []) : Idle m c := by
  intro l
  have balanced := inv.sound c
  rw [done] at balanced
  exact holds_false_iff.1 (balanced l)

theorem step_inv (inv : Inv m) (orderly : Orderly m e) (taken : step b m e = some m') : Inv m' := by
  cases e with
  | start c r =>
    obtain ⟨done, same⟩ := Option.ite_none_right_eq_some.1 taken
    cases same
    exact inv.setProg (inv.idle_of_done done) (balanced_code r)
  | advance c => exact inv.advance orderly taken
  | interrupt c woken yields =>
    obtain ⟨idle, same⟩ := Option.ite_none_right_eq_some.1 taken
    cases same
    exact inv.setProg idle ((balanced_interrupt c woken yields).append (inv.sound.idle idle))
  | migrate c c' =>
    obtain ⟨⟨idle, idle'⟩, same⟩ := Option.ite_none_right_eq_some.1 taken
    cases same
    exact (inv.setProg idle (inv.sound.idle idle')).setProg idle' (inv.sound.idle idle)

theorem boot_inv : Inv (boot ncpu) :=
  ⟨fun _ _ => rfl, fun _ _ windows => by cases windows.1.1⟩

/-- The order in which `outer` is taken first and `rrqueue.lock` last. -/
def rank (outer l : Lock) : Nat := if l = outer then 0 else if l = .rrqueue then 2 else 1

/-- If no CPU waits for `outer` under `inner`, every CPU waits upwards. -/
theorem Inv.ranked (inv : Inv m) {outer inner : Lock} (opposed : Opposed outer inner)
    (closed : ∀ c, ¬ Window m inner outer c) : m.Ranked (rank outer) := by
  intro c l rest code l' held
  obtain ⟨notOwn, notLeaf⟩ := inv.sound.waiting code
  have ne : l' ≠ l := by
    rintro rfl
    exact notOwn held
  have notQueue : l' ≠ .rrqueue := by
    rintro rfl
    exact notLeaf .rrqueue rfl held
  have upwards : ¬ (l' = inner ∧ l = outer) := by
    rintro ⟨rfl, rfl⟩
    apply closed c
    refine ⟨held, ?_⟩
    rw [code]
    exact .inl rfl
  rcases opposed with ⟨rfl, rfl⟩ | ⟨rfl, rfl⟩ <;> cases l <;> cases l' <;> simp_all [rank]

theorem Inv.no_circularWait (inv : Inv m) : ¬ m.CircularWait := by
  by_cases opened : ∃ c, Window m .ptable .ticks c
  · obtain ⟨c, window⟩ := opened
    exact no_circularWait_of_ranked (inv.ranked (.inl ⟨rfl, rfl⟩) fun c' window' => inv.apart c c' ⟨window, window'⟩)
  · exact no_circularWait_of_ranked (inv.ranked (.inr ⟨rfl, rfl⟩) fun c window => opened ⟨c, window⟩)

/-- **No circular wait in an orderly run**, on any number of CPUs. -/
theorem no_circular_wait {tr : List (Cpus ncpu × Event ncpu)} (run : Run (step b) (boot ncpu) tr m)
    (orderly : ∀ q ∈ tr, Orderly q.1 q.2) : ∀ s ∈ visited tr m, ¬ s.CircularWait := by
  intro s member
  obtain ⟨pre, rest, rfl, reached⟩ := run.prefix_of_visited member
  have inv : Inv s := reached.invariant Orderly Inv boot_inv (fun _ _ _ inv ok taken => step_inv inv ok taken)
    fun q inside => orderly q (List.mem_append_left _ inside)
  exact inv.no_circularWait

/-- CPU 0 is in the timer interrupt and waits for `ptable.lock`, which CPU 1 holds in `yield`. -/
theorem no_circular_wait_timer : ∃ tr m, Run (step .default) (boot 2) tr m ∧ m.holder .ticks = some 0 ∧
    m.prog 0 = [.acquire .ptable, .release .ptable, .release .ticks] ∧ m.holder .ptable = some 1 ∧ ¬ m.CircularWait := by
  have run : Run (step .default) (boot 2) _ _ :=
    (((Run.start.next (e := .start 1 .yield) rfl).next (e := .interrupt 0 0 false) rfl).next (e := .advance 0) rfl).next
      (e := .advance 1) rfl
  refine ⟨_, _, run, rfl, rfl, rfl, no_circular_wait run ?_ _ (by simp [visited])⟩
  intro q inside c l l' rest advances code _ ahead c' window
  rcases List.mem_cons.1 inside with rfl | inside
  · cases advances
  rcases List.mem_cons.1 inside with rfl | inside
  · cases advances
  rcases List.mem_cons.1 inside with rfl | inside
  · -- no lock is held when CPU 0 takes `tickslock`
    cases window.1
  · -- `yield` does not take `tickslock`
    obtain rfl := List.mem_singleton.1 inside
    cases advances
    cases code
    exact ahead.1 rfl

/-- CPU 0 is in the timer interrupt and CPU 1 in `allocproc`, each past its first acquire. -/
def timerMeetsAllocproc : List (Event 2) :=
  let cpu0 : Fin 2 := ⟨0, Nat.two_pos⟩
  let cpu1 : Fin 2 := ⟨1, Nat.one_lt_two⟩
  [.interrupt cpu0 0 false, .start cpu1 (.allocproc true), .advance cpu0, .advance cpu1]

/-- They wait for each other. -/
theorem circular_wait : ∃ tr m, Run (step .default) (boot 2) tr m ∧ m.CircularWait := by
  have final : ∃ m, exec (step .default) (boot 2) timerMeetsAllocproc = some m ∧
      m.prog 0 = .acquire .ptable :: [.release .ptable, .release .ticks] ∧ m.holder .ptable = some 1 ∧
      m.prog 1 = .acquire .ticks :: [.release .ticks, .release .ptable] ∧ m.holder .ticks = some 0 :=
    ⟨_, rfl, rfl, rfl, rfl, rfl⟩
  obtain ⟨m, done, code, held, code', held'⟩ := final
  refine ⟨_, m, run_of_exec done, 0, ?_⟩
  exact .tail (.single ⟨_, _, code, held⟩) ⟨_, _, code', held'⟩

end Xv6.Locking
