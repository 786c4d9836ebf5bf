import Xv6.Signal.Machine

/-!
# Is delivery transparent?

A delivery saves the frame and the `sigreturn` at the end of the handler restores
it, all 25 fields. But `sys_sigreturn` is itself a system call, and `syscall` then
stores its result 0 in the `eax` of the restored frame. So the interrupted
program sees its own frame again exactly if the system call that was interrupted
returned 0, and the frame was saved where the handler cannot change it.
-/

namespace Xv6.Signal

open Xv6.Lib

variable {P : Type} [DecidableEq P] {s s' : State P} {e : Event P} {p : P}

/-! ## What delivery saves -/

/-- Where the frame is after a delivery: in `backuptf`, or nowhere if the pointer stayed null. -/
theorem saveFrame_backuptf (kalloc : Bool) (q : Proc) :
    (q.saveFrame kalloc).backuptf = if q.backuptf = none ∧ kalloc = false then none else some q.tf := by
  unfold Proc.saveFrame
  cases q.backuptf <;> cases kalloc <;> rfl

theorem handleSignals_delivered {q : Proc} (kalloc : Bool) (delivers : q.Delivers) :
    (q.handleSignals kalloc).backuptf = (if q.backuptf = none ∧ kalloc = false then none else some q.tf) ∧
      (q.handleSignals kalloc).insignal = 1 := by
  unfold Proc.handleSignals
  rw [if_pos delivers]
  constructor
  · exact saveFrame_backuptf kalloc _
  · unfold Proc.saveFrame
    cases q.backuptf <;> cases kalloc <;> rfl

theorem handleSignals_idle {q : Proc} (kalloc : Bool) (idle : ¬ q.Delivers) : q.handleSignals kalloc = q :=
  if_neg idle

/-! ## While the handler runs -/

/-- An event that is neither a `sigreturn` of `p`, nor the start of a new process in its slot, nor a store
of the kernel outside of user memory. -/
def Undisturbed (p : P) : Event P → Prop
  | .trap q _ .sigreturn => q ≠ p
  | .trap _ _ (.fork child _) => child ≠ p
  | .wild _ _ => False
  | _ => True

/-- The signal state of `p` that its handler runs in. -/
def InHandler (p : P) (backup : Option Trapframe) (s : State P) : Prop :=
  (s p).insignal = 1 ∧ (s p).backuptf = backup

omit [DecidableEq P] in
theorem InHandler.not_delivers {backup : Option Trapframe} (handling : InHandler p backup s) : ¬ (s p).Delivers := by
  intro delivers
  have zero := delivers.2.2
  rw [handling.1] at zero
  cases zero

/-- An update that keeps the two fields of every process keeps the state of the handler. -/
theorem InHandler.update {backup : Option Trapframe} (handling : InHandler p backup s) {q : P} {r : Proc}
    (insignal : q = p → r.insignal = (s p).insignal) (backuptf : q = p → r.backuptf = (s p).backuptf) :
    InHandler p backup (Function.update s q r) := by
  rcases eq_or_ne p q with rfl | other
  · exact ⟨by simpa using (insignal rfl).trans handling.1, by simpa using (backuptf rfl).trans handling.2⟩
  · exact ⟨by simpa [other] using handling.1, by simpa [other] using handling.2⟩

/-- A process is written that keeps the two fields. -/
theorem InHandler.keep {backup : Option Trapframe} (handling : InHandler p backup s) {q : P} {r : Proc}
    (insignal : r.insignal = (s q).insignal) (backuptf : r.backuptf = (s q).backuptf) :
    InHandler p backup (Function.update s q r) :=
  handling.update (fun same => same ▸ insignal) fun same => same ▸ backuptf

theorem body_inHandler {backup : Option Trapframe} {q : P} {call : Call P} (handling : InHandler p backup s)
    (notReturn : call = .sigreturn → q ≠ p) (notChild : ∀ child pid, call = .fork child pid → child ≠ p)
    (done : call.body s q = some s') : InHandler p backup s' := by
  cases call with
  | sigreturn =>
    cases done
    exact handling.update (fun same => absurd same (notReturn rfl)) fun same => absurd same (notReturn rfl)
  | signal signum handler =>
    have kept : ((s q).signal signum handler).1.insignal = (s q).insignal ∧
        ((s q).signal signum handler).1.backuptf = (s q).backuptf := by
      unfold Proc.signal
      split <;> exact ⟨rfl, rfl⟩
    cases done
    exact handling.keep kept.1 kept.2
  | sigsend t signum =>
    have kept : ((s t).sigsend signum).insignal = (s t).insignal ∧
        ((s t).sigsend signum).backuptf = (s t).backuptf := by
      unfold Proc.sigsend
      split <;> exact ⟨rfl, rfl⟩
    cases done
    exact (handling.keep kept.1 kept.2).keep rfl rfl
  | kill t =>
    cases done
    have first : InHandler p backup (Function.update s t { s t with killed := true }) := handling.keep rfl rfl
    exact first.keep rfl rfl
  | fork child pid =>
    obtain ⟨_, same⟩ := Option.ite_none_right_eq_some.1 done
    cases same
    have other := notChild child pid rfl
    exact (handling.update (fun same => absurd same other) fun same => absurd same other).keep rfl rfl
  | exit =>
    cases done
    exact handling.keep rfl rfl
  | wait child pid =>
    obtain ⟨_, same⟩ := Option.ite_none_right_eq_some.1 done
    cases same
    refine InHandler.keep ?_ rfl rfl
    exact handling.keep rfl rfl
  | exec mem sz pteU eip esp =>
    cases done
    exact handling.keep rfl rfl
  | other r mem sz pteU =>
    cases done
    exact handling.keep rfl rfl

/-- The handler's system calls, and those of all other processes, leave the saved frame alone. -/
theorem step_inHandler {backup : Option Trapframe} (handling : InHandler p backup s) (calm : Undisturbed p e)
    (taken : step s e = some s') : InHandler p backup s' := by
  cases e with
  | user q mem =>
    obtain ⟨_, same⟩ := Option.ite_none_right_eq_some.1 taken
    cases same
    exact handling.keep rfl rfl
  | trap q frame call =>
    obtain ⟨_, taken⟩ := Option.ite_none_right_eq_some.1 taken
    split at taken
    · cases taken
      exact handling.keep rfl rfl
    · have entered : InHandler p backup (Function.update s q { s q with tf := frame }) := handling.keep rfl rfl
      apply body_inHandler entered _ _ taken
      · rintro rfl
        exact calm
      · rintro child pid rfl
        exact calm
  | ret q kalloc =>
    obtain ⟨_, taken⟩ := Option.ite_none_right_eq_some.1 taken
    split at taken
    · cases taken
      exact handling.keep rfl rfl
    · split at taken
      · cases taken
      · cases taken
        apply handling.update
        · rintro rfl
          rw [handleSignals_idle kalloc handling.not_delivers]
        · rintro rfl
          rw [handleSignals_idle kalloc handling.not_delivers]
  | birth q =>
    obtain ⟨_, same⟩ := Option.ite_none_right_eq_some.1 taken
    cases same
    exact handling.keep rfl rfl
  | wild q after => exact calm.elim

/-! ## From delivery to `sigreturn` -/

/-- What a delivery leaves for the handler. -/
theorem ret_delivers {kalloc : Bool} (delivers : (s p).Delivers) (alive : (s p).killed = false)
    (taken : step s (.ret p kalloc) = some s') :
    InHandler p (if (s p).backuptf = none ∧ kalloc = false then none else some (s p).tf) s' := by
  obtain ⟨_, taken⟩ := Option.ite_none_right_eq_some.1 taken
  simp only [alive, Bool.false_eq_true, if_false] at taken
  split at taken
  · cases taken
  · cases taken
    obtain ⟨saved, handling⟩ := handleSignals_delivered kalloc delivers
    exact ⟨by simpa using handling, by simpa using saved⟩

/-- The frame that `sys_sigreturn` leaves, with the result of the call in `eax`. -/
theorem trap_sigreturn {frame : Trapframe} (taken : step s (.trap p frame .sigreturn) = some s')
    (called : (s' p).phase = .called) :
    (s' p).tf = { (s p).backuptf.getD (Trapframe.load (s p).mem 0) with eax := 0 } := by
  obtain ⟨_, taken⟩ := Option.ite_none_right_eq_some.1 taken
  split at taken
  · cases taken
    simp at called
  · cases taken
    simp [Proc.sysSigreturn, Proc.result]

/-- A return to user mode with nothing pending. -/
theorem ret_quiet {kalloc : Bool} (taken : step s (.ret p kalloc) = some s') (quiet : (s p).pending = 0)
    (back : (s' p).phase = .user) : (s p).phase = .called ∧ (s' p).tf = (s p).tf := by
  have idle : ¬ (s p).Delivers := by
    intro delivers
    have positive := delivers.2.1
    rw [quiet] at positive
    exact absurd positive (by decide)
  obtain ⟨called, taken⟩ := Option.ite_none_right_eq_some.1 taken
  refine ⟨called, ?_⟩
  split at taken
  · cases taken
    simp at back
  · rw [if_neg fun wild => idle wild.1] at taken
    cases taken
    simp [handleSignals_idle kalloc idle]

theorem Trapframe.eq_iff_eax (f g : Trapframe) :
    { g with eax := 0 } = f ↔ f.eax = 0 ∧ { g with eax := 0 } = { f with eax := 0 } := by
  constructor
  · rintro rfl
    exact ⟨rfl, rfl⟩
  · rintro ⟨zero, same⟩
    rw [same, ← zero]

section
variable {s1 s2 s3 s4 : State P} {kalloc kalloc' : Bool} {frame : Trapframe} {tr : List (State P × Event P)}

/-- **A delivery is transparent exactly if the interrupted system call returned 0** and the frame was saved
in the kernel, or at address 0 where it is still intact. -/
theorem delivery_transparent_iff (delivers : (s p).Delivers) (alive : (s p).killed = false)
    (delivered : step s (.ret p kalloc) = some s1) (handler : Run step s1 tr s2)
    (calm : ∀ q ∈ tr, Undisturbed p q.2) (returned : step s2 (.trap p frame .sigreturn) = some s3)
    (quiet : (s3 p).pending = 0) (resumed : step s3 (.ret p kalloc') = some s4) (back : (s4 p).phase = .user) :
    (s4 p).tf = (s p).tf ↔ (s p).tf.eax = 0 ∧ ((s p).backuptf ≠ none ∨ kalloc = true ∨
      { Trapframe.load (s2 p).mem 0 with eax := 0 } = { (s p).tf with eax := 0 }) := by
  have handling := handler.invariant (fun _ e => Undisturbed p e) (InHandler p _) (ret_delivers delivers alive delivered)
    (fun _ _ _ handling calm taken => step_inHandler handling calm taken) calm
  obtain ⟨called, kept⟩ := ret_quiet resumed quiet back
  rw [kept, trap_sigreturn returned called, handling.2, Trapframe.eq_iff_eax]
  by_cases null : (s p).backuptf = none ∧ kalloc = false
  · rw [if_pos null]
    simp [null.1, null.2]
  · rw [if_neg null]
    have saved : (s p).backuptf ≠ none ∨ kalloc = true := by
      by_contra neither
      apply null
      simpa using neither
    simp only [Option.getD_some, and_true]
    tauto

end

/-- A process whose system call is about to return `r`, with signal 0 pending. -/
def interrupted (r : BitVec 32) : State Unit := fun _ =>
  { Proc.zero with
    phase := .called, tf := { initFrame with trapno := T_SYSCALL, eax := r }, sz := 4096, pteU := fun v => v = 0, pending := 1 }

/-- The frame of the `sigreturn` that the return code makes. -/
def sigreturnFrame : Trapframe := { initFrame with trapno := T_SYSCALL, eax := SYS_sigreturn }

/-- In its handler, which returns at once; in the kernel after `sys_sigreturn`; and in user mode again. -/
def inHandler (r : BitVec 32) : State Unit := fun _ => { (interrupted r ()).handleSignals true with phase := .user }

def afterSigreturn (r : BitVec 32) : State Unit := fun _ =>
  (Proc.sysSigreturn { inHandler r () with tf := sigreturnFrame }).result 0

def afterReturn (r : BitVec 32) : State Unit := fun _ =>
  { (afterSigreturn r ()).handleSignals true with phase := .user }

theorem afterSigreturn_pending (r : BitVec 32) : (afterSigreturn r ()).pending = 0 := by
  show (1 : BitVec 32) &&& ~~~ ((1 : BitVec 32) <<< (getLowestSetBit 1).toNat) = 0
  decide

theorem interrupted_steps (r : BitVec 32) : step (interrupted r) (.ret () true) = some (inHandler r) ∧
    step (inHandler r) (.trap () sigreturnFrame .sigreturn) = some (afterSigreturn r) ∧
    step (afterSigreturn r) (.ret () true) = some (afterReturn r) := by
  have hardware : Hardware (inHandler r ()) sigreturnFrame := ⟨rfl, rfl, rfl⟩
  have alive : ¬ (inHandler r ()).killed = true := Bool.false_ne_true
  have called : (afterSigreturn r ()).phase = .called := rfl
  have still : ¬ (afterSigreturn r ()).killed = true := Bool.false_ne_true
  have idle : ¬ (afterSigreturn r ()).Delivers := by
    intro delivers
    have positive := delivers.2.1
    rw [afterSigreturn_pending] at positive
    exact absurd positive (by decide)
  refine ⟨rfl, ?_, ?_⟩
  · rw [step, if_pos ⟨rfl, hardware, rfl⟩, if_neg alive]
    rfl
  · rw [step, if_pos called, if_neg still, if_neg fun both => idle both.1]
    rfl

/-- A call that returned 0 does not notice the signal. -/
theorem delivery_transparent_zero :
    (interrupted 0 ()).Delivers ∧ (afterReturn 0 ()).tf = (interrupted 0 ()).tf := by
  obtain ⟨delivered, returned, resumed⟩ := interrupted_steps 0
  refine ⟨by decide, ?_⟩
  apply (delivery_transparent_iff (by decide) rfl delivered .start (by simp) returned (by decide) resumed rfl).2
  exact ⟨rfl, .inr (.inl rfl)⟩

/-- A call that returned 5 appears to have returned 0. -/
theorem delivery_not_transparent : (interrupted 5 ()).Delivers ∧
    step (interrupted 5) (.ret () true) = some (inHandler 5) ∧
    step (inHandler 5) (.trap () sigreturnFrame .sigreturn) = some (afterSigreturn 5) ∧
    (afterSigreturn 5 ()).pending = 0 ∧ step (afterSigreturn 5) (.ret () true) = some (afterReturn 5) ∧
    (interrupted 5 ()).tf.eax = 5 ∧ (afterReturn 5 ()).tf.eax = 0 ∧ (afterReturn 5 ()).tf ≠ (interrupted 5 ()).tf := by
  obtain ⟨delivered, returned, resumed⟩ := interrupted_steps 5
  refine ⟨by decide, delivered, returned, by decide, resumed, rfl, rfl, fun same => ?_⟩
  exact absurd (congrArg Trapframe.eax same) (by decide)

end Xv6.Signal
