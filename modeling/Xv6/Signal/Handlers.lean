import Xv6.Lib.History
import Xv6.Signal.Delivery

/-!
# Whose handler runs?

`signal_handlers` lies in the slot of the process table. `signal` writes it and nothing
clears it: neither `exec`, which replaces the program whose functions the entries
point to, nor `fork`, whose child finds what the last process in its slot left, nor
`exit` and `wait`. An entry that was never written is 0, and a signal without a
handler sends the process there. What a delivery does is right as long as the
process has registered a handler for the signal itself, since its last `exec`.
-/

namespace Xv6.Signal

open Xv6.Lib

variable {P : Type}

/-! ## The history of a slot -/

/-- In this step the process in slot `p` passes `h` to `signal(n, ·)`. -/
def Registers (p : P) (n : Nat) (h : BitVec 32) (q : State P × Event P) : Prop :=
  n < 32 ∧ (q.1 p).killed = false ∧ ∃ frame, q.2 = .trap p frame (.signal n h)

/-- In this step `p` forks the process in slot `child`. -/
def Forks (p child : P) (q : State P × Event P) : Prop :=
  (q.1 p).killed = false ∧ ∃ frame pid, q.2 = .trap p frame (.fork child pid)

/-- In this step the process in slot `p` executes another program, or a new process starts there. -/
def Replaces (p : P) (q : State P × Event P) : Prop :=
  (q.1 p).killed = false ∧ (∃ frame mem sz pteU eip esp, q.2 = .trap p frame (.exec mem sz pteU eip esp)) ∨ ∃ r, Forks r p q

/-- `h` is a handler of the program that `p` executes: `p` has passed it to `signal(n, ·)` since its last `exec`, or the
process it was forked from had done so before the fork. -/
inductive HandlerOf (p : P) (n : Nat) (h : BitVec 32) (tr : List (State P × Event P)) : Prop
  | own (since : Since (Registers p n h) (Replaces p) tr)
  | parent {pre post : List (State P × Event P)} {q : State P × Event P} {r : P} (split : tr = pre ++ q :: post)
      (forks : Forks r p q) (still : ∀ y ∈ post, ¬ Replaces p y) (since : Since (Registers r n h) (Replaces r) pre)

/-- The signal that `handleSignals` takes. -/
def Proc.taken (q : Proc) : Nat := (getLowestSetBit q.pending).toNat

section
variable [DecidableEq P] {s s' : State P} {e : Event P} {p q : P} {n : Nat} {h : BitVec 32} {tr : List (State P × Event P)}

/-- Whenever a step of the run sets `eip` for a signal, the value is a handler of the current program. -/
def Proper (pre : List (State P × Event P)) (q : State P × Event P) : Prop :=
  ∀ p kalloc s', q.2 = .ret p kalloc → (q.1 p).killed = false → (q.1 p).Delivers → step q.1 q.2 = some s' →
    HandlerOf p (q.1 p).taken (s' p).tf.eip pre

/-- The condition on a step: a signal is delivered only to a process that has registered a handler for it itself, since it
started or executed its program, and on a stack that is mapped. -/
def Prudent (pre : List (State P × Event P)) (q : State P × Event P) : Prop :=
  (∀ p after, q.2 ≠ .wild p after) ∧
  ∀ p kalloc, q.2 = .ret p kalloc → (q.1 p).killed = false → (q.1 p).Delivers →
    ∃ h, Since (Registers p (q.1 p).taken h) (Replaces p) pre

/-! ## Who writes the table -/

theorem update_handlers {r : Proc} (same : r.signal_handlers n = (s q).signal_handlers n) :
    (Function.update s q r p).signal_handlers n = (s p).signal_handlers n := by
  rcases eq_or_ne p q with rfl | other
  · rw [Function.update_self, same]
  · rw [Function.update_of_ne other]

theorem handleSignals_handlers (kalloc : Bool) (r : Proc) : (r.handleSignals kalloc).signal_handlers = r.signal_handlers := by
  unfold Proc.handleSignals Proc.saveFrame
  split
  · cases r.backuptf <;> cases kalloc <;> rfl
  · rfl

/-- A call other than `signal` keeps the handlers. -/
theorem body_handlers {call : Call P} (kept : ∀ signum h, call = .signal signum h → q = p → signum ≠ n ∨ ¬ n < 32)
    (done : call.body s q = some s') : (s' p).signal_handlers n = (s p).signal_handlers n := by
  cases call with
  | sigreturn =>
    cases done
    exact update_handlers rfl
  | signal signum handler =>
    cases done
    rcases eq_or_ne p q with rfl | other
    · rw [Function.update_self]
      show ((s p).signal signum handler).1.signal_handlers n = _
      unfold Proc.signal
      split
      · rfl
      · rename_i inside
        refine Function.update_of_ne ?_ ..
        rintro rfl
        rcases kept signum handler rfl rfl with differs | outside
        · exact differs (Int.toNat_of_nonneg (by omega)).symm
        · omega
    · rw [Function.update_of_ne other]
  | sigsend t signum =>
    cases done
    have first : ((s t).sigsend signum).signal_handlers n = (s t).signal_handlers n := by
      unfold Proc.sigsend
      split <;> rfl
    refine (update_handlers ?_).trans (update_handlers first)
    rfl
  | kill t =>
    cases done
    refine (update_handlers ?_).trans (update_handlers ?_)
    · rfl
    · rfl
  | fork child pid =>
    obtain ⟨_, same⟩ := Option.ite_none_right_eq_some.1 done
    cases same
    refine (update_handlers ?_).trans (update_handlers ?_)
    · rfl
    · rfl
  | exit =>
    cases done
    exact update_handlers rfl
  | wait child pid =>
    obtain ⟨_, same⟩ := Option.ite_none_right_eq_some.1 done
    cases same
    refine (update_handlers ?_).trans (update_handlers ?_)
    · rfl
    · rfl
  | exec mem sz pteU eip esp =>
    cases done
    exact update_handlers rfl
  | other r mem sz pteU =>
    cases done
    exact update_handlers rfl

/-- Only a registration changes an entry of the table. -/
theorem step_handlers (tame : ∀ p after, e ≠ .wild p after) (kept : ∀ h, ¬ Registers p n h (s, e))
    (taken : step s e = some s') :
    (s' p).signal_handlers n = (s p).signal_handlers n := by
  cases e with
  | user q mem =>
    obtain ⟨_, same⟩ := Option.ite_none_right_eq_some.1 taken
    cases same
    exact update_handlers rfl
  | trap q frame call =>
    obtain ⟨_, taken⟩ := Option.ite_none_right_eq_some.1 taken
    split at taken
    · cases taken
      exact update_handlers rfl
    · rename_i alive
      have entered : (Function.update s q { s q with tf := frame } p).signal_handlers n = (s p).signal_handlers n :=
        update_handlers rfl
      rw [← entered]
      refine body_handlers ?_ taken
      rintro signum h rfl rfl
      by_contra both
      rw [not_or, not_not, not_not] at both
      obtain ⟨rfl, lt⟩ := both
      exact kept h ⟨lt, by simpa using alive, frame, rfl⟩
  | ret q kalloc =>
    obtain ⟨_, taken⟩ := Option.ite_none_right_eq_some.1 taken
    split at taken
    · cases taken
      exact update_handlers rfl
    · split at taken
      · cases taken
      · cases taken
        refine update_handlers ?_
        rw [handleSignals_handlers]
  | birth q =>
    obtain ⟨_, same⟩ := Option.ite_none_right_eq_some.1 taken
    cases same
    exact update_handlers rfl
  | wild q after => exact absurd rfl (tame q after)

/-- A registration does. -/
theorem Registers.handler (registers : Registers p n h (s, e)) (taken : step s e = some s') : (s' p).signal_handlers n = h := by
  obtain ⟨lt, alive, frame, rfl⟩ := registers
  obtain ⟨_, taken⟩ := Option.ite_none_right_eq_some.1 taken
  rw [if_neg (by rw [alive]; decide)] at taken
  cases taken
  rw [Function.update_self]
  show ((Function.update s p { s p with tf := frame } p).signal n h).1.signal_handlers n = h
  unfold Proc.signal
  rw [if_neg (by omega)]
  exact Function.update_self ..

/-! ## Over a run -/

/-- A process that has registered a handler since it started its program has it in the table. -/
def Current (tr : List (State P × Event P)) (s : State P) : Prop :=
  ∀ p n, (∃ h, Since (Registers p n h) (Replaces p) tr) → Since (Registers p n ((s p).signal_handlers n)) (Replaces p) tr

theorem Current.next (current : Current tr s) (tame : ∀ p after, e ≠ .wild p after) (taken : step s e = some s') :
    Current (tr ++ [(s, e)]) s' := by
  rintro p n ⟨h, since⟩
  rw [since_concat]
  by_cases registers : ∃ h, Registers p n h (s, e)
  · obtain ⟨h, registers⟩ := registers
    rw [registers.handler taken]
    exact .inl registers
  · rw [step_handlers tame (not_exists.1 registers) taken]
    rcases since_concat.1 since with now | ⟨before, still⟩
    · exact absurd ⟨h, now⟩ registers
    · exact .inr ⟨current p n ⟨h, before⟩, still⟩

theorem Current.of_run {s0 : State P} (run : Run step s0 tr s) (tame : ∀ q ∈ tr, ∀ p after, q.2 ≠ .wild p after) :
    Current tr s := by
  have current : (∀ q ∈ tr, ∀ p after, q.2 ≠ .wild p after) → Current tr s := by
    refine run.history (fun tr s => (∀ q ∈ tr, ∀ p after, q.2 ≠ .wild p after) → Current tr s) ?_ ?_
    · rintro _ p n ⟨h, since⟩
      exact absurd since not_since_nil
    · intro tr s e s' ih taken tame
      have before : Current tr s := ih fun q member => tame q (List.mem_append_left _ member)
      exact before.next (tame (s, e) (by simp)) taken
  exact current tame

/-- The handler that a delivery jumps to. -/
theorem delivery_eip {kalloc : Bool} (alive : (s p).killed = false) (delivers : (s p).Delivers)
    (taken : step s (.ret p kalloc) = some s') : (s' p).tf.eip = (s p).signal_handlers (s p).taken := by
  obtain ⟨_, taken⟩ := Option.ite_none_right_eq_some.1 taken
  rw [if_neg (by rw [alive]; decide)] at taken
  split at taken
  · cases taken
  · cases taken
    rw [Function.update_self]
    exact (handleSignals_fields kalloc delivers).2.2

/-- In a run in which signals are delivered only to processes that have registered a handler for them since they started
their program, every delivery runs a handler of the current program. -/
theorem delivery_runs_own_handler {s0 : State P} (run : Run step s0 tr s) (prudent : AtEach Prudent tr) : AtEach Proper tr := by
  rintro pre ⟨t, e⟩ post rfl p kalloc s' rfl alive delivers taken
  have condition := prudent pre _ post rfl
  have tame : ∀ q ∈ pre, ∀ p after, q.2 ≠ .wild p after := by
    intro q member
    obtain ⟨before, behind, rfl⟩ := List.append_of_mem member
    exact (prudent before q _ (List.append_assoc ..)).1
  have current : Current pre t := .of_run run.around.1 tame
  rw [delivery_eip alive delivers taken]
  exact .own (current p _ (condition.2 p kalloc rfl alive delivers))

end

/-! ## One process -/

/-- The frame of a system call with number `n`. -/
def callFrame (n : BitVec 32) : Trapframe := { initFrame with trapno := T_SYSCALL, eax := n }

/-- The first process, in its only slot, has executed these events. -/
def reached (es : List (Event Unit)) : State Unit := (exec step (userinit () fun _ => 0) es).getD (userinit () fun _ => 0)

/-- It passes 0x100 to `signal(5, ·)`. -/
def registering : List (Event Unit) := [.birth (), .trap () (callFrame 22) (.signal 5 0x100), .ret () true]

/-- It executes another program. -/
def executing : List (Event Unit) := [.trap () (callFrame 7) (.exec (fun _ => 0) 8192 (fun v => v = 1) 0 8192), .ret () true]

/-- It sends signal 5 to itself. -/
def sending : Event Unit := .trap () (callFrame 25) (.sigsend () 5)

theorem prudent_of_not_ret {pre : List (State Unit × Event Unit)} {s : State Unit} {e : Event Unit}
    (tame : ∀ p after, e ≠ .wild p after) (other : ∀ p kalloc, e ≠ .ret p kalloc) : Prudent pre (s, e) :=
  ⟨tame, fun p kalloc same => absurd same (other p kalloc)⟩

theorem prudent_of_idle {pre : List (State Unit × Event Unit)} {s : State Unit} {kalloc : Bool} (idle : ¬ (s ()).Delivers) :
    Prudent pre (s, .ret () kalloc) :=
  ⟨by simp, fun _ _ _ _ delivers => absurd delivers idle⟩

/-- The steps of the run in which the process registers a handler and then sends itself the signal. -/
theorem ownHandler_steps : step (reached []) (.birth ()) = some (reached (registering.take 1)) ∧
    step (reached (registering.take 1)) (.trap () (callFrame 22) (.signal 5 0x100)) = some (reached (registering.take 2)) ∧
    step (reached (registering.take 2)) (.ret () true) = some (reached registering) ∧
    step (reached registering) sending = some (reached (registering ++ [sending])) ∧
    step (reached (registering ++ [sending])) (.ret () true) = some (reached (registering ++ [sending, .ret () true])) :=
  ⟨rfl, rfl, rfl, rfl, rfl⟩

/-- A process that has registered its handler gets it. -/
theorem delivery_runs_registered : ∃ pre q s, Run step (userinit () fun _ => 0) (pre ++ [q]) s ∧ AtEach Prudent (pre ++ [q]) ∧
    AtEach Proper (pre ++ [q]) ∧ (q.1 ()).Delivers ∧ (s ()).tf.eip = 0x100 := by
  obtain ⟨first, second, third, fourth, fifth⟩ := ownHandler_steps
  have run := ((((Run.start.next first).next second).next third).next fourth).next fifth
  have idle : ¬ (reached (registering.take 2) ()).Delivers := by decide
  refine ⟨_, _, _, run, ?_⟩
  refine (fun prudent => ⟨prudent, delivery_runs_own_handler run prudent, by decide, by decide⟩) ?_
  refine ((((atEach_nil.concat ?_).concat ?_).concat (prudent_of_idle idle)).concat ?_).concat ⟨by simp, ?_⟩
  · exact prudent_of_not_ret (by simp) (by simp)
  · exact prudent_of_not_ret (by simp) (by simp)
  · exact prudent_of_not_ret (by simp [sending]) (by simp [sending])
  · rintro ⟨⟩ kalloc - - -
    have signum : (reached (registering ++ [sending]) ()).taken = 5 := by decide
    rw [signum]
    refine ⟨0x100, [(reached [], .birth ())], _, _, rfl, ⟨by decide, rfl, _, rfl⟩, ?_⟩
    simp [Replaces, Forks, sending]

/-- A process that has executed another program gets the handler of the old one. -/
theorem delivery_runs_stale_handler : ∃ tr s, Run step (userinit () fun _ => 0) tr s ∧ ¬ AtEach Proper tr ∧
    (s ()).tf.eip = 0x100 := by
  have first : step (reached []) (.birth ()) = some (reached (registering.take 1)) := rfl
  have second : step (reached (registering.take 1)) (.trap () (callFrame 22) (.signal 5 0x100)) =
    some (reached (registering.take 2)) := rfl
  have third : step (reached (registering.take 2)) (.ret () true) = some (reached registering) := rfl
  have fourth : step (reached registering) (.trap () (callFrame 7) (.exec (fun _ => 0) 8192 (fun v => v = 1) 0 8192)) =
    some (reached (registering ++ executing.take 1)) := rfl
  have fifth : step (reached (registering ++ executing.take 1)) (.ret () true) = some (reached (registering ++ executing)) := rfl
  have sixth : step (reached (registering ++ executing)) sending = some (reached (registering ++ executing ++ [sending])) := rfl
  have seventh : step (reached (registering ++ executing ++ [sending])) (.ret () true) =
    some (reached (registering ++ executing ++ [sending, .ret () true])) := rfl
  have run := ((((((Run.start.next first).next second).next third).next fourth).next fifth).next sixth).next seventh
  refine ⟨_, _, run, fun proper => ?_, by decide⟩
  have handler := proper _ _ [] rfl () true _ rfl rfl (by decide) seventh
  have signum : (reached (registering ++ executing ++ [sending]) ()).taken = 5 := by decide
  have eip : (reached (registering ++ executing ++ [sending, .ret () true]) ()).tf.eip = 0x100 := by decide
  dsimp only at handler
  rw [signum, eip] at handler
  cases handler with
  | own since =>
    -- the registration is before the `exec`
    simp only [since_concat] at since
    simp [not_since_nil, Registers, Replaces, Forks, sending] at since
    have alive : (reached registering ()).killed = false := rfl
    rw [alive] at since
    cases since.2
  | @parent pre post q r split forks still since =>
    obtain ⟨-, frame, pid, isFork⟩ := forks
    have member : q ∈ pre ++ q :: post := by simp
    rw [← split] at member
    simp only [List.nil_append, List.mem_append, List.mem_singleton] at member
    rcases member with (((((rfl | rfl) | rfl) | rfl) | rfl) | rfl) <;> simp [sending] at isFork

end Xv6.Signal
