import Xv6.Signal.Transparency

/-!
# Forged trap frames

`sys_sigreturn` copies `backuptf` over the trap frame without asking whether a
signal is being handled. With a null pointer it takes the frame from user
address 0, and in a reused slot the frame of another process. As long as every
`sigreturn` answers a delivery to the same process, and the delivery found a page
for the frame, the frame restored is the one saved and every return to user mode
is one to user privilege.
-/

namespace Xv6.Signal

open Xv6.Lib

variable {P : Type} [DecidableEq P] {s s' : State P} {e : Event P} {p q : P} {tr : List (State P × Event P)}

/-! ## Deliveries that have not been returned from -/

/-- How a step changes the frame that the open delivery to `p` saved: a delivery opens one, and a
`sigreturn` of `p` and the start of a new process in the slot close it. -/
def openStep (p : P) (saved : Option Trapframe) (q : State P × Event P) : Option Trapframe :=
  match q.2 with
  | .ret r _ => if r = p ∧ (q.1 p).killed = false ∧ (q.1 p).Delivers then some (q.1 p).tf else saved
  | .trap r _ .sigreturn => if r = p then none else saved
  | .trap _ _ (.fork child _) => if child = p then none else saved
  | _ => saved

/-- The frame saved by the delivery to the process in slot `p` that it has not yet returned from. -/
def outstanding (p : P) (tr : List (State P × Event P)) : Option Trapframe := tr.foldl (openStep p) none

theorem outstanding_snoc (p : P) (tr : List (State P × Event P)) (q : State P × Event P) :
    outstanding p (tr ++ [q]) = openStep p (outstanding p tr) q := by
  rw [outstanding, List.foldl_append]
  rfl

/-- A step of a well-behaved run: a `sigreturn` answers a delivery, a delivery has a page to save the
frame in, and the user stack is where the kernel may store. -/
def Answered (pre : List (State P × Event P)) (s : State P) : Event P → Prop
  | .trap p _ .sigreturn => outstanding p pre ≠ none
  | .ret p kalloc => (s p).Delivers → (s p).backuptf ≠ none ∨ kalloc = true
  | .wild _ _ => False
  | _ => True

/-! ## Privilege -/

/-- The process has a frame that it returns, or returned, to user mode with. -/
def Phase.live : Phase → Bool
  | .born | .user | .called => true
  | .unused | .zombie => false

/-- All frames are user frames. -/
def Level (s : State P) : Prop := ∀ p, (s p).phase.live = true → (s p).tf.User

theorem Level.update (level : Level s) {r : Proc} (user : r.phase.live = true → r.tf.User) :
    Level (Function.update s p r) := by
  intro q live
  rcases eq_or_ne q p with rfl | other
  · rw [Function.update_self] at live ⊢
    exact user live
  · rw [Function.update_of_ne other] at live ⊢
    exact level q live

/-- A change that keeps phase, `cs` and `ss` of a process. -/
theorem Level.keep (level : Level s) {r : Proc} (phase : r.phase = (s p).phase) (cs : r.tf.cs = (s p).tf.cs)
    (ss : r.tf.ss = (s p).tf.ss) : Level (Function.update s p r) := by
  apply level.update
  intro live
  rw [phase] at live
  have user := level p live
  unfold Trapframe.User
  rw [cs, ss]
  exact user

/-- No system call but `sigreturn` touches `cs` and `ss`. -/
theorem body_level {call : Call P} (level : Level s) (running : (s p).phase = .user)
    (restored : call = .sigreturn → ((s p).backuptf.getD (Trapframe.load (s p).mem 0)).User)
    (done : call.body s p = some s') : Level s' := by
  have user : (s p).tf.User := level p (by rw [running]; rfl)
  cases call with
  | sigreturn =>
    cases done
    exact level.update fun _ => restored rfl
  | signal signum handler =>
    have kept : ((s p).signal signum handler).1.tf = (s p).tf := by
      unfold Proc.signal
      split <;> rfl
    cases done
    apply level.update
    intro _
    show (((s p).signal signum handler).1.tf).User
    rw [kept]
    exact user
  | sigsend t signum =>
    have kept : ((s t).sigsend signum).phase = (s t).phase ∧ ((s t).sigsend signum).tf = (s t).tf := by
      unfold Proc.sigsend
      split <;> exact ⟨rfl, rfl⟩
    cases done
    have first : Level (Function.update s t ((s t).sigsend signum)) :=
      level.keep kept.1 (by rw [kept.2]) (by rw [kept.2])
    have user' : (Function.update s t ((s t).sigsend signum) p).tf.User := by
      rcases eq_or_ne p t with rfl | other
      · rw [Function.update_self, kept.2]
        exact user
      · rw [Function.update_of_ne other]
        exact user
    exact first.update fun _ => user'
  | kill t =>
    cases done
    have first : Level (Function.update s t { s t with killed := true }) := level.keep rfl rfl rfl
    have user' : (Function.update s t { s t with killed := true } p).tf.User := by
      rcases eq_or_ne p t with rfl | other
      · rw [Function.update_self]
        exact user
      · rw [Function.update_of_ne other]
        exact user
    exact first.update fun _ => user'
  | fork child pid =>
    obtain ⟨⟨_, other⟩, same⟩ := Option.ite_none_right_eq_some.1 done
    cases same
    apply Level.update
    · exact level.update fun _ => user
    · intro _
      rw [Function.update_of_ne other.symm]
      exact user
  | exit =>
    cases done
    apply level.update
    intro live
    cases live
  | wait child pid =>
    obtain ⟨⟨_, other⟩, same⟩ := Option.ite_none_right_eq_some.1 done
    cases same
    apply Level.update
    · apply level.update
      intro live
      cases live
    · intro _
      rw [Function.update_of_ne other.symm]
      exact user
  | exec mem sz pteU eip esp =>
    cases done
    exact level.update fun _ => user
  | other r mem sz pteU =>
    cases done
    exact level.update fun _ => user

/-- A delivery changes only `esp` and `eip` of the frame. -/
theorem handleSignals_level (kalloc : Bool) (r : Proc) (user : r.tf.User) : (r.handleSignals kalloc).tf.User := by
  unfold Proc.handleSignals
  split
  · unfold Proc.saveFrame
    cases r.backuptf <;> cases kalloc <;> exact user
  · exact user

theorem step_level (level : Level s) (notWild : ∀ q after, e ≠ .wild q after)
    (restored : ∀ p frame, e = .trap p frame .sigreturn → ((s p).backuptf.getD (Trapframe.load (s p).mem 0)).User)
    (taken : step s e = some s') : Level s' := by
  cases e with
  | user q mem =>
    obtain ⟨_, same⟩ := Option.ite_none_right_eq_some.1 taken
    cases same
    exact level.keep rfl rfl rfl
  | trap q frame call =>
    obtain ⟨⟨running, hardware, _⟩, taken⟩ := Option.ite_none_right_eq_some.1 taken
    split at taken
    · cases taken
      apply level.update
      intro live
      cases live
    · have entered : Level (Function.update s q { s q with tf := frame }) := by
        apply level.update
        intro live
        have user := level q live
        exact ⟨hardware.2.1.trans user.1, hardware.2.2.trans user.2⟩
      apply body_level entered _ _ taken
      · simpa using running
      · rintro rfl
        simpa using restored q frame rfl
  | ret q kalloc =>
    obtain ⟨called, taken⟩ := Option.ite_none_right_eq_some.1 taken
    split at taken
    · cases taken
      apply level.update
      intro live
      cases live
    · split at taken
      · cases taken
      · cases taken
        apply level.update
        intro _
        exact handleSignals_level kalloc (s q) (level q (by rw [called]; rfl))
  | birth q =>
    obtain ⟨born, same⟩ := Option.ite_none_right_eq_some.1 taken
    cases same
    apply level.update
    intro _
    exact level q (by rw [born]; rfl)
  | wild q after => exact absurd rfl (notWild q after)

/-! ## Well-behaved runs -/

/-- What holds in a well-behaved run: the saved frames are in the kernel, and all frames are user frames. -/
structure Inv (tr : List (State P × Event P)) (s : State P) : Prop where
  level : Level s
  saved : ∀ p f, outstanding p tr = some f → InHandler p (some f) s ∧ f.User

/-- A step that neither opens nor closes a delivery to `p` leaves what it saved alone. -/
theorem openStep_undisturbed {saved : Option Trapframe} (calm : Undisturbed p e)
    (idle : ∀ kalloc, e = .ret p kalloc → (s p).killed = false → ¬ (s p).Delivers) :
    openStep p saved (s, e) = saved := by
  cases e with
  | user q mem => rfl
  | trap q frame call =>
    cases call with
    | sigreturn => exact if_neg calm
    | fork child pid => exact if_neg calm
    | _ => rfl
  | ret q kalloc =>
    apply if_neg
    rintro ⟨rfl, alive, delivers⟩
    exact idle kalloc rfl alive delivers
  | birth q => rfl
  | wild q after => rfl

theorem openStep_delivered {saved : Option Trapframe} {kalloc : Bool} (alive : (s p).killed = false)
    (delivers : (s p).Delivers) : openStep p saved (s, .ret p kalloc) = some (s p).tf :=
  if_pos ⟨rfl, alive, delivers⟩

/-- A `sigreturn` of `p` and a new process in its slot leave no delivery open. -/
theorem openStep_closed {saved : Option Trapframe} (closed : ¬ Undisturbed p e)
    (notWild : ∀ q after, e ≠ .wild q after) : openStep p saved (s, e) = none := by
  cases e with
  | trap q frame call =>
    cases call with
    | sigreturn => exact if_pos (not_not.1 closed)
    | fork child pid => exact if_pos (not_not.1 closed)
    | _ => exact absurd trivial closed
  | wild q after => exact absurd rfl (notWild q after)
  | _ => exact absurd trivial closed

/-- **Every step keeps the invariant.** -/
theorem step_inv (inv : Inv tr s) (answered : Answered tr s e) (taken : step s e = some s') :
    Inv (tr ++ [(s, e)]) s' := by
  have notWild : ∀ q after, e ≠ .wild q after := by
    rintro q after rfl
    exact answered
  constructor
  · apply step_level inv.level notWild _ taken
    rintro p frame rfl
    obtain ⟨f, opened⟩ := Option.ne_none_iff_exists'.1 answered
    obtain ⟨handling, user⟩ := inv.saved p f opened
    rw [handling.2]
    exact user
  · intro p f opened
    rw [outstanding_snoc] at opened
    by_cases delivery : ∃ kalloc, e = .ret p kalloc ∧ (s p).killed = false ∧ (s p).Delivers
    · -- the delivery to `p` saves its frame in a page of the kernel
      obtain ⟨kalloc, rfl, alive, delivers⟩ := delivery
      have frame : f = (s p).tf := by
        rw [openStep_delivered alive delivers] at opened
        exact (Option.some.inj opened).symm
      have paged : ¬ ((s p).backuptf = none ∧ kalloc = false) := by
        rintro ⟨null, failed⟩
        rcases answered delivers with page | ok
        · exact page null
        · rw [failed] at ok
          cases ok
      have called : (s p).phase = .called := (Option.ite_none_right_eq_some.1 taken).1
      have handling := ret_delivers delivers alive taken
      rw [if_neg paged, ← frame] at handling
      exact ⟨handling, frame ▸ inv.level p (by rw [called]; rfl)⟩
    · by_cases calm : Undisturbed p e
      · rw [openStep_undisturbed calm fun kalloc same alive delivers =>
          delivery ⟨kalloc, same, alive, delivers⟩] at opened
        obtain ⟨handling, user⟩ := inv.saved p f opened
        exact ⟨step_inHandler handling calm taken, user⟩
      · rw [openStep_closed calm notWild] at opened
        cases opened

theorem userinit_inv (p : P) (mem : Mem) : Inv [] (userinit p mem) := by
  refine ⟨?_, by simp [outstanding]⟩
  apply Level.update
  · intro q live
    cases live
  · intro _
    exact (by decide : initFrame.cs &&& 3 = 3 ∧ initFrame.ss &&& 3 = 3)

/-- The runs whose every step is well behaved. -/
def WellBehaved (tr : List (State P × Event P)) : Prop :=
  ∀ pre t e rest, tr = pre ++ (t, e) :: rest → Answered pre t e

theorem run_inv {init : P} {mem : Mem} (run : Run step (userinit init mem) tr s) (behaved : WellBehaved tr) :
    Inv tr s := by
  induction run with
  | start => exact userinit_inv init mem
  | @next tr s s' e run taken ih =>
    have before : Inv tr s := ih fun pre t e' rest split =>
      behaved pre t e' (rest ++ [(s, e)]) (by rw [split]; simp)
    exact step_inv before (behaved tr s e [] rfl) taken

/-- **In a well-behaved run `sigreturn` restores exactly the frame that the delivery to this process saved,
and every return to user mode is one to user privilege.** -/
theorem sigreturn_restores {init : P} {mem : Mem} (run : Run step (userinit init mem) tr s)
    (behaved : WellBehaved tr) :
    (∀ pre t p frame rest, tr = pre ++ (t, .trap p frame .sigreturn) :: rest →
      ∃ f, outstanding p pre = some f ∧ (t p).insignal = 1 ∧ (Proc.sysSigreturn { t p with tf := frame }).tf = f) ∧
    ∀ t ∈ visited tr s, ∀ p, (t p).phase = .user → (t p).tf.User := by
  constructor
  · rintro pre t p frame rest rfl
    obtain ⟨reached, _⟩ := run.around
    have inv := run_inv reached fun pre' t' e' rest' split =>
      behaved pre' t' e' (rest' ++ (t, .trap p frame .sigreturn) :: rest) (by rw [split]; simp)
    obtain ⟨f, opened⟩ := Option.ne_none_iff_exists'.1 (behaved pre t _ rest rfl)
    obtain ⟨⟨handling, backup⟩, _⟩ := inv.saved p f opened
    exact ⟨f, opened, handling, by simp [Proc.sysSigreturn, backup]⟩
  · intro t member p running
    obtain ⟨pre, rest, rfl, reached⟩ := run.prefix_of_visited member
    have inv := run_inv reached fun pre' t' e' rest' split =>
      behaved pre' t' e' (rest' ++ rest) (by rw [split]; simp)
    exact inv.level p (by rw [running]; rfl)

instance : (pre : List (State P × Event P)) → (s : State P) → (e : Event P) → Decidable (Answered pre s e)
  | pre, _, .trap p _ .sigreturn => inferInstanceAs (Decidable (outstanding p pre ≠ none))
  | _, _, .trap _ _ (.signal _ _) | _, _, .trap _ _ (.sigsend _ _) | _, _, .trap _ _ (.kill _)
  | _, _, .trap _ _ (.fork _ _) | _, _, .trap _ _ .exit | _, _, .trap _ _ (.wait _ _)
  | _, _, .trap _ _ (.exec _ _ _ _ _) | _, _, .trap _ _ (.other _ _ _ _) | _, _, .user _ _ | _, _, .birth _ =>
    .isTrue trivial
  | _, s, .ret p kalloc => inferInstanceAs (Decidable ((s p).Delivers → (s p).backuptf ≠ none ∨ kalloc = true))
  | _, _, .wild _ _ => .isFalse id

/-- Well-behaved runs can be checked step by step. -/
theorem wellBehaved_of_all (all : ∀ i : Fin tr.length, Answered (tr.take i) (tr.get i).1 (tr.get i).2) :
    WellBehaved tr := by
  rintro pre t e rest rfl
  have here := all ⟨pre.length, by simp⟩
  simpa using here

/-- A process sends itself signal 0, which is delivered when `sigsend` returns, and its handler returns. -/
def signalled : List (Event Unit) :=
  [.birth (), .trap () { sigreturnFrame with eax := 25 } (.sigsend () 0), .ret () true,
    .trap () sigreturnFrame .sigreturn, .ret () true]

/-- The `sigreturn` of that handler restores the frame, and the process is back in user mode. -/
theorem sigreturn_restores_signalled : ∃ tr s, Run step (userinit () fun _ => 0) tr s ∧ tr.length = 5 ∧
    (s ()).phase = .user ∧ (s ()).tf.User := by
  have final : (exec step (userinit () fun _ => 0) signalled).map (fun s => (s ()).phase) = some .user := by
    decide +kernel
  obtain ⟨s, done, running⟩ := Option.map_eq_some_iff.1 final
  have behaved : WellBehaved (record step (userinit () fun _ => 0) signalled) :=
    wellBehaved_of_all (by decide +kernel)
  have run := run_of_exec done
  refine ⟨_, s, run, by decide +kernel, running, ?_⟩
  exact (sigreturn_restores run behaved).2 s (by simp [visited]) () running

/-- Memory in which the bytes of a frame at address 0 select `SEG_KCODE` and `SEG_KDATA`. -/
def forgedMem : Mem := fun a => if a = 60 then 8 else if a = 72 then 16 else 0

/-- The first process, which never had a signal, writes the frame and calls `sigreturn`. -/
def forgery : List (Event Unit) :=
  [.birth (), .user () forgedMem, .trap () sigreturnFrame .sigreturn, .ret () true]

/-- No delivery to it was ever made, and it returns from the kernel with kernel privilege. -/
theorem sigreturn_forges : ∃ tr s, Run step (userinit () fun _ => 0) tr s ∧ outstanding () tr = none ∧
    (s ()).insignal = 0 ∧ (s ()).phase = .user ∧ (s ()).tf.cs = 8 ∧ ¬ (s ()).tf.User := by
  have final : (exec step (userinit () fun _ => 0) forgery).map
      (fun s => ((s ()).insignal, (s ()).phase, (s ()).tf.cs)) = some (0, .user, 8) := by decide +kernel
  obtain ⟨s, done, seen⟩ := Option.map_eq_some_iff.1 final
  obtain ⟨idle, running, kernel⟩ : (s ()).insignal = 0 ∧ (s ()).phase = .user ∧ (s ()).tf.cs = 8 := by
    simpa using seen
  refine ⟨_, s, run_of_exec done, ?_, idle, running, kernel, ?_⟩
  · decide +kernel
  · intro user
    have level := user.1
    rw [kernel] at level
    exact absurd level (by decide)

end Xv6.Signal
