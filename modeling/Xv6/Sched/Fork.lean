import Xv6.Sched.Tree
import Xv6.Signal.Delivery

/-!
# What a new process finds in its slot

The kernel of the scheduler together with the signal fields that `fork` and
`wait` pass over. `allocproc` and `fork` store neither `killed` nor `pending`,
`insignal` or `signal_handlers`, so a child starts with whatever the slot's last
process, or a `kill` or `sigsend` of an unused slot's pid, left there. Only `chan`
is certain: it is null outside of a sleep.
-/

namespace Xv6.Sched

open Xv6.Lib

variable {ncpu : Nat} {b : Build} {k k' : Kernel ncpu} {e : Event ncpu} {c : Fin ncpu} {p q : Slot}

/-! ## `chan` is null outside of a sleep -/

/-- Process `p` is in `sched()` below `sleep`. -/
def Returning (k : Kernel ncpu) (p : Slot) : Prop :=
  (k.resume p = .sleep ∨ k.resume p = .wait ∨ k.resume p = .waitStat) ∧
    ((k.tab.proc p).state = .sleeping ∨ (k.tab.proc p).state = .runnable ∨ ∃ c, k.cpu c = .switchTo p)

/-- The channel of `p` is set only while `p` sleeps. -/
def Tidy (k : Kernel ncpu) (p : Slot) : Prop := (k.tab.proc p).chan ≠ .null → Returning k p

theorem Tidy.null (tidy : Tidy k p) (asleep : (k.tab.proc p).state ≠ .sleeping)
    (waiting : (k.tab.proc p).state ≠ .runnable) (switched : ∀ c, k.cpu c ≠ .switchTo p) :
    (k.tab.proc p).chan = .null := by
  by_contra set
  rcases (tidy set).2 with h | h | ⟨c, h⟩
  · exact asleep h
  · exact waiting h
  · exact switched c h

/-- A process that is not on the way through `sched()` is tidy. -/
theorem Tidy.null_of_state (tidy : Tidy k p) (inv : Inv b False k)
    (off : (k.tab.proc p).state ∉ [.sleeping, .runnable, .running]) : (k.tab.proc p).chan = .null := by
  simp only [List.mem_cons, List.not_mem_nil, or_false, not_or] at off
  exact tidy.null off.1 off.2.1 fun c at_ => off.2.2 (inv.switchTo c p at_).1

/-- So is a process that runs. -/
theorem Tidy.null_of_run (tidy : Tidy k p) (inv : Inv b False k) (runs : k.cpu c = .run p) :
    (k.tab.proc p).chan = .null := by
  have running := inv.run c p runs
  refine tidy.null (by rw [running]; decide) (by rw [running]; decide) ?_
  intro c' at_
  have same := inv.one c c' p (by rw [runs]; rfl) (by rw [at_]; rfl)
  subst same
  cases runs.symm.trans at_

/-- A process that a step leaves asleep, or wakes. -/
theorem Tidy.keep (tidy : Tidy k p) (chan : (k'.tab.proc p).chan = (k.tab.proc p).chan)
    (resume : k'.resume p = k.resume p)
    (state : (k'.tab.proc p).state = (k.tab.proc p).state ∨
      (k.tab.proc p).state = .sleeping ∧ (k'.tab.proc p).state = .runnable)
    (cpu : ∀ c, k.cpu c = .switchTo p → k'.cpu c = .switchTo p) : Tidy k' p := by
  intro set
  rw [chan] at set
  obtain ⟨inSleep, at_⟩ := tidy set
  refine ⟨resume ▸ inSleep, ?_⟩
  rcases state with same | ⟨_, woke⟩
  · rw [same]
    exact at_.imp_right (.imp_right fun ⟨c, h⟩ => ⟨c, cpu c h⟩)
  · exact .inr (.inl woke)

theorem Tidy.of_null (null : (k.tab.proc p).chan = .null) : Tidy k p := fun set => absurd null set

/-- Every other process when CPU `c` stops executing something else than a switch to it. -/
theorem update_switchTo {x : Ctx} (elsewhere : k.cpu c ≠ .switchTo p) (c' : Fin ncpu) (at_ : k.cpu c' = .switchTo p) :
    Function.update k.cpu c x c' = .switchTo p := by
  rcases eq_or_ne c' c with same | other
  · exact absurd (same ▸ at_) elsewhere
  · rw [Function.update_of_ne other]
    exact at_

/-- A round of the loop of `wait` or `wait_stat`, from a state in which the caller's channel is null. -/
theorem waitBody_tidy {me : Slot} (clear : Proc → Proc) {r : Resume} (tidy : ∀ p ≠ me, Tidy k p)
    (null : (k.tab.proc me).chan = .null) (mine : ∀ p ≠ me, k.cpu c ≠ .switchTo p)
    (dead : ∀ p, (k.tab.proc p).state = .zombie → (k.tab.proc p).chan = .null)
    (cleared : ∀ q, (clear q).chan = q.chan) (inWait : r = .wait ∨ r = .waitStat) (p : Slot) :
    Tidy (waitBody k c me clear r) p := by
  unfold waitBody
  split
  · rename_i q kids found
    have zombie := (waitScan_some found).2
    rcases eq_or_ne p q with rfl | ne
    · refine .of_null ?_
      simp [cleared, dead p zombie]
    · rcases eq_or_ne p me with rfl | other
      · refine .of_null ?_
        simpa [modify_proc_ne, ne] using null
      · refine (tidy p other).keep ?_ rfl (.inl ?_) (update_switchTo (mine p other))
        · simp [modify_proc_ne, ne]
        · simp [modify_proc_ne, ne]
  · split_ifs
    · rcases eq_or_ne p me with rfl | other
      · exact .of_null null
      · exact (tidy p other).keep rfl rfl (.inl rfl) (update_switchTo (mine p other))
    · rcases eq_or_ne p me with rfl | other
      · intro _
        refine ⟨?_, .inl ?_⟩
        · rcases inWait with rfl | rfl <;> simp [Kernel.enterSched]
        · simp [Kernel.enterSched, Kernel.setCpu]
      · refine (tidy p other).keep ?_ ?_ (.inl ?_) (update_switchTo (mine p other))
        · simp [Kernel.enterSched, Kernel.setCpu, modify_proc_ne, other]
        · simp [Kernel.enterSched, Kernel.setCpu, other]
        · simp [Kernel.enterSched, Kernel.setCpu, modify_proc_ne, other]

/-- Waking sleepers keeps the channels tidy. -/
theorem Tidy.awakens (tidy : Tidy k p) (woken : Awakens k.tab k'.tab) (resume : k'.resume = k.resume)
    (cpu : k'.cpu = k.cpu) : Tidy k' p :=
  tidy.keep (woken.chan p) (congrFun resume p) (woken.states p) fun c at_ => (congrFun cpu c).trans at_

/-- The running process `me` of CPU `c` gives the CPU up. -/
theorem leave_tidy {me : Slot} {t : Table} {r : Resume} (tidy : ∀ p, Tidy k p) (runs : k.cpu c = .run me)
    (others : ∀ p ≠ me, (t.proc p).chan = (k.tab.proc p).chan ∧
      ((t.proc p).state = (k.tab.proc p).state ∨ (k.tab.proc p).state = .sleeping ∧ (t.proc p).state = .runnable))
    (mine : (t.proc me).chan = .null ∨ r = .sleep ∧ (t.proc me).state = .sleeping) (p : Slot) :
    Tidy ({ k with tab := t }.enterSched c me r) p := by
  rcases eq_or_ne p me with rfl | ne
  · rcases mine with null | ⟨rfl, asleep⟩
    · exact .of_null null
    · exact fun _ => ⟨.inl (by simp [Kernel.enterSched]), .inl asleep⟩
  · refine (tidy p).keep (others p ne).1 ?_ (others p ne).2 (update_switchTo (by rw [runs]; simp))
    simp [Kernel.enterSched, ne]

/-- **A step keeps the channels tidy.** -/
theorem step_tidy (inv : Inv b False k) (tidy : ∀ p, Tidy k p) (taken : step b k e = some k') (p : Slot) :
    Tidy k' p := by
  have dead (q : Slot) (zombie : (k.tab.proc q).state = .zombie) : (k.tab.proc q).chan = .null :=
    (tidy q).null_of_state inv (by rw [zombie]; decide)
  have quiet {t : Table} (woken : Awakens k.tab t) : Tidy { k with tab := t } p := (tidy p).awakens woken rfl rfl
  -- a process other than the one that a CPU switches to keeps its record
  have others {c : Fin ncpu} {k' : Kernel ncpu} {x : Ctx} (elsewhere : k.cpu c ≠ .switchTo p)
      (proc : k'.tab.proc p = k.tab.proc p) (resume : k'.resume p = k.resume p) (cpu : k'.cpu = Function.update k.cpu c x) :
      Tidy k' p :=
    (tidy p).keep (by rw [proc]) resume (.inl (by rw [proc])) (by rw [cpu]; exact update_switchTo elsewhere)
  have waits {c : Fin ncpu} {me : Slot} {clear : Proc → Proc} {r : Resume} (runs : k.cpu c = .run me)
      (cleared : ∀ q, (clear q).chan = q.chan) (inWait : r = .wait ∨ r = .waitStat) : Tidy (waitBody k c me clear r) p :=
    waitBody_tidy clear (fun p _ => tidy p) ((tidy me).null_of_run inv runs) (by rw [runs]; simp) dead cleared inWait p
  cases step_cases taken with
  | @schedule c k' _ idle round =>
    have chan := (schedule_fields round p).2.2
    obtain ⟨l, linked, _⟩ := inv.queue
    obtain ⟨t, total, g, same, released | ⟨q, inside, switched⟩⟩ := schedule_cases linked b c
    · cases released.symm.trans round
      exact (tidy p).keep chan rfl (.inl (same.state p)) fun _ => id
    · cases switched.symm.trans round
      rcases eq_or_ne p q with rfl | ne
      · intro set
        rw [chan] at set
        exact ⟨(tidy p set).1, .inr (.inr ⟨c, Function.update_self ..⟩)⟩
      · refine (tidy p).keep chan rfl (.inl ?_) (update_switchTo (by rw [idle]; simp))
        simp [modify_proc_ne, ne, remove_state, same.state]
  | rescan _ at_ | back at_ | backScan at_ => exact others (by rw [at_]; simp) rfl rfl rfl
  | @scan c i at_ =>
    have elsewhere : k.cpu c ≠ .switchTo p := by rw [at_]; simp
    unfold scan
    split
    · rename_i inside
      dsimp only
      split
      · exact others elsewhere rfl rfl rfl
      · rcases eq_or_ne p ⟨i, inside⟩ with rfl | ne
        · intro set
          rw [show ((k.tab.modify ⟨i, inside⟩ _).proc ⟨i, inside⟩).chan = _ from
            congrArg Proc.chan (modify_proc_self ..)] at set
          exact ⟨(tidy _ set).1, .inr (.inr ⟨c, Function.update_self ..⟩)⟩
        · exact others elsewhere (by simp [modify_proc_ne, ne]) rfl rfl
    · exact others elsewhere rfl rfl rfl
  | @resume c me at_ =>
    have mine : ∀ p ≠ me, k.cpu c ≠ .switchTo p := by
      intro p ne other
      rw [at_] at other
      cases other
      exact ne rfl
    -- the state after `proc->chan = 0`
    let awake : Kernel ncpu := { k with tab := k.tab.modify me fun q => { q with chan := .null } }
    have others (p : Slot) (ne : p ≠ me) : awake.tab.proc p = k.tab.proc p := by
      simp [awake, modify_proc_ne, ne]
    have null : (awake.tab.proc me).chan = .null := by simp [awake]
    have kept (p : Slot) (ne : p ≠ me) : Tidy awake p :=
      (tidy p).keep (by rw [others p ne]) rfl (.inl (by rw [others p ne])) fun _ => id
    have dead (p : Slot) (zombie : (awake.tab.proc p).state = .zombie) : (awake.tab.proc p).chan = .null := by
      rcases eq_or_ne p me with rfl | ne
      · exact null
      · rw [others p ne] at zombie ⊢
        exact dead p zombie
    unfold resume
    dsimp only
    cases returns : k.resume me with
    | forkret | yield =>
      rcases eq_or_ne p me with rfl | ne
      · refine .of_null ?_
        by_contra set
        have inSleep := (tidy p set).1
        rw [returns] at inSleep
        simp at inSleep
      · exact (tidy p).keep rfl rfl (.inl rfl) (update_switchTo (mine p ne))
    | sleep =>
      rcases eq_or_ne p me with rfl | ne
      · exact .of_null null
      · exact (kept p ne).keep rfl rfl (.inl rfl) (update_switchTo (mine p ne))
    | wait => exact waitBody_tidy reap kept null mine dead (fun _ => rfl) (.inl rfl) p
    | waitStat => exact waitBody_tidy reapStat kept null mine dead (fun _ => rfl) (.inr rfl) p
  | @yield c me _ at_ =>
    refine leave_tidy tidy at_ ?_ (.inl ?_) p
    · intro q ne
      exact ⟨(Awakens.makeRunnable_fields b k.tab me q).2.2, .inl (by rw [makeRunnable_state, if_neg ne])⟩
    · rw [(Awakens.makeRunnable_fields b k.tab me me).2.2]
      exact (tidy me).null_of_run inv at_
  | @sleep c chan me _ current =>
    refine leave_tidy tidy (current_run current) ?_ (.inr ⟨rfl, ?_⟩) p
    · intro q ne
      rw [modify_proc_ne _ me _ ne]
      exact ⟨rfl, .inl rfl⟩
    · simp
  | wakeup => exact quiet (.wakeup1 _ k.tab)
  | kill => exact quiet (.kill k.tab _)
  | sigsend => exact quiet (.sigsend k.tab _ _)
  | @exit c me _ _ current =>
    have woken : Awakens k.tab (wakeup1 b (.ofProc (k.tab.proc me).parent) k.tab) := .wakeup1 _ _
    have moved := reparent_reparents b me k.initproc (wakeup1 b (.ofProc (k.tab.proc me).parent) k.tab)
    refine leave_tidy tidy (current_run current) ?_ (.inl ?_) p
    · intro q ne
      rw [modify_proc_ne _ me _ ne, moved.chan q, woken.chan q]
      refine ⟨rfl, ?_⟩
      rcases woken.states q with same | ⟨slept, woke⟩
      · rw [← same]
        exact moved.states q
      · rcases moved.states q with same' | ⟨slept', _⟩
        · exact .inr ⟨slept, same'.trans woke⟩
        · rw [woke] at slept'
          cases slept'
    · rw [modify_proc_self]
      show ((reparent b me k.initproc _).proc me).chan = _
      rw [moved.chan me, woken.chan me]
      exact (tidy me).null_of_run inv (current_run current)
  | wait _ current => exact waits (current_run current) (fun _ => rfl) (.inl rfl)
  | waitStat _ current => exact waits (current_run current) (fun _ => rfl) (.inr rfl)
  | allocproc =>
    unfold allocproc
    split
    · exact tidy p
    · rename_i q found
      have unused : (k.tab.proc q).state = .unused := by simpa using List.find?_some found
      rcases eq_or_ne p q with rfl | ne
      · refine .of_null ?_
        simpa using (tidy p).null_of_state inv (by rw [unused]; decide)
      · refine (tidy p).keep ?_ rfl (.inl ?_) fun _ => id
        · simp [modify_proc_ne, ne]
        · simp [modify_proc_ne, ne]
  | @forkFail c me q new =>
    rcases eq_or_ne p q with rfl | ne
    · refine .of_null ?_
      simpa using (tidy p).null_of_state inv (by rw [inv.child me p new]; decide)
    · refine (tidy p).keep ?_ rfl (.inl ?_) fun _ => id
      · simp [modify_proc_ne, ne]
      · simp [modify_proc_ne, ne]
  | @forkDone c me q _ new =>
    have chan : ((forkDone b k me q).tab.proc p).chan = (k.tab.proc p).chan := by
      unfold forkDone
      rw [(Awakens.makeRunnable_fields b _ q p).2.2, modify_data _ q p Proc.chan _ rfl]
    rcases eq_or_ne p q with rfl | ne
    · exact .of_null (chan.trans ((tidy p).null_of_state inv (by rw [inv.child me p new]; decide)))
    · refine (tidy p).keep chan (Function.update_of_ne ne ..) (.inl ?_) fun _ => id
      unfold forkDone
      rw [makeRunnable_state, if_neg ne, modify_proc_ne _ q _ ne]
  | tick => exact (tidy p).awakens ((Awakens.wakeup1 .ticks k.tab).trans (.advanceprocstats _)) rfl rfl
  | advanceprocstats => exact quiet (.advanceprocstats k.tab)
  | @priority c n me => exact quiet (.modify k.tab me (fun q => { q with priority := n }) rfl rfl rfl rfl)

/-! ## The signal fields -/

/-- The kernel with the fields of `struct proc` that only signals use. -/
structure SigKernel (ncpu : Nat) where
  kernel : Kernel ncpu
  insignal : Slot → BitVec 32
  signal_handlers : Slot → Fin SIGNUM → BitVec 32

inductive SigEvent (ncpu : Nat) where
  /-- a step of the kernel; none of them stores to `insignal` or `signal_handlers` -/
  | kernel (e : Event ncpu)
  | signal (c : Fin ncpu) (signum : Int) (handler : BitVec 32)
  /-- `handleSignals` on the way out of a system call -/
  | handleSignals (c : Fin ncpu)
  | sigreturn (c : Fin ncpu)
  /-- `trap` kills the process for a fault in user mode -/
  | fault (c : Fin ncpu)
  deriving DecidableEq, Repr

/-- `signal`, in process `p`. -/
def signal (s : SigKernel ncpu) (p : Slot) (signum : Int) (handler : BitVec 32) : SigKernel ncpu :=
  if signum ≥ 32 ∨ signum < 0 then s
  else
    let handlers := Function.update (s.signal_handlers p) (Fin.ofNat SIGNUM signum.toNat) handler
    { s with signal_handlers := Function.update s.signal_handlers p handlers }

/-- What `handleSignals` stores to the process table. -/
def handleSignals (s : SigKernel ncpu) (p : Slot) : SigKernel ncpu :=
  let pending := (s.kernel.tab.proc p).pending
  if 0 < pending.toInt ∧ s.insignal p = 0 then
    let signum := (Signal.getLowestSetBit pending).toNat
    let tab := s.kernel.tab.modify p fun q => { q with pending := q.pending &&& ~~~ ((1 : BitVec 32) <<< signum) }
    { s with kernel := { s.kernel with tab := tab }, insignal := Function.update s.insignal p 1 }
  else s

/-- The stores are those of the full `handleSignals` to these fields, on the return from a system call. -/
theorem handleSignals_agrees (s : SigKernel ncpu) (p : Slot) {q : Signal.Proc} (kalloc : Bool)
    (call : q.tf.trapno = Signal.T_SYSCALL) (pending : q.pending = (s.kernel.tab.proc p).pending)
    (insignal : q.insignal = s.insignal p) :
    ((handleSignals s p).kernel.tab.proc p).pending = (q.handleSignals kalloc).pending ∧
      (handleSignals s p).insignal p = (q.handleSignals kalloc).insignal := by
  unfold handleSignals
  by_cases delivers : q.Delivers
  · obtain ⟨cleared, inside, _⟩ := Signal.handleSignals_fields kalloc delivers
    obtain ⟨_, some, idle⟩ := delivers
    rw [pending] at some cleared
    rw [insignal] at idle
    simp [some, idle, cleared, inside]
  · have skips : ¬ (0 < (s.kernel.tab.proc p).pending.toInt ∧ s.insignal p = 0) := fun takes =>
      delivers ⟨call, pending ▸ takes.1, insignal.trans takes.2⟩
    rw [if_neg skips, show q.handleSignals kalloc = q from if_neg delivers]
    exact ⟨pending.symm, insignal.symm⟩

def sigStep (b : Build) (s : SigKernel ncpu) : SigEvent ncpu → Option (SigKernel ncpu)
  | .kernel e => (step b s.kernel e).map fun k => { s with kernel := k }
  | .signal c signum handler => (s.kernel.current c).map fun p => signal s p signum handler
  | .handleSignals c => (s.kernel.current c).map (handleSignals s)
  | .sigreturn c => (s.kernel.current c).map fun p => { s with insignal := Function.update s.insignal p 0 }
  | .fault c => (s.kernel.current c).map fun p =>
    { s with kernel := { s.kernel with tab := s.kernel.tab.modify p fun q => { q with killed := true } } }

def sigBoot (b : Build) (ncpu : Nat) : SigKernel ncpu := ⟨boot b ncpu, fun _ => 0, fun _ _ => 0⟩

/-- A successful `fork` by the process that runs on CPU `c`, and the child's slot. -/
def fork (b : Build) (s : SigKernel ncpu) (c : Fin ncpu) : Option (SigKernel ncpu × Slot) := do
  let p ← s.kernel.current c
  let k ← step b s.kernel (.allocproc c)
  let np ← k.np p
  let k ← step b k (.forkDone c)
  return ({ s with kernel := k }, np)

/-- The fields that decide how a process reacts to signals and to `kill`. -/
@[ext] structure SigFields where
  killed : Bool
  pending : BitVec 32
  insignal : BitVec 32
  signal_handlers : Fin SIGNUM → BitVec 32
  deriving DecidableEq

def SigKernel.sigFields (s : SigKernel ncpu) (p : Slot) : SigFields where
  killed := (s.kernel.tab.proc p).killed
  pending := (s.kernel.tab.proc p).pending
  insignal := s.insignal p
  signal_handlers := s.signal_handlers p

def SigKernel.chan (s : SigKernel ncpu) (p : Slot) : Chan := (s.kernel.tab.proc p).chan

/-- The two states agree on everything but what is left in unused slots. -/
structure Agree (s s' : SigKernel ncpu) : Prop where
  state : ∀ p, (s'.kernel.tab.proc p).state = (s.kernel.tab.proc p).state
  live : ∀ p, (s.kernel.tab.proc p).state ≠ .unused → s'.kernel.tab.proc p = s.kernel.tab.proc p ∧
    s'.kernel.resume p = s.kernel.resume p ∧ s'.insignal p = s.insignal p ∧ s'.signal_handlers p = s.signal_handlers p
  first : s'.kernel.tab.first = s.kernel.tab.first
  last : s'.kernel.tab.last = s.kernel.tab.last
  totalTickets : s'.kernel.totalTickets = s.kernel.totalTickets
  rng : s'.kernel.rng = s.kernel.rng
  nextpid : s'.kernel.nextpid = s.kernel.nextpid
  ticks : s'.kernel.ticks = s.kernel.ticks
  initproc : s'.kernel.initproc = s.kernel.initproc
  lock : s'.kernel.lock = s.kernel.lock
  cpu : s'.kernel.cpu = s.kernel.cpu
  np : s'.kernel.np = s.kernel.np

instance (s s' : SigKernel ncpu) : Decidable (Agree s s') :=
  decidable_of_iff
    ((∀ p, (s'.kernel.tab.proc p).state = (s.kernel.tab.proc p).state) ∧
      (∀ p, (s.kernel.tab.proc p).state ≠ .unused → s'.kernel.tab.proc p = s.kernel.tab.proc p ∧
        s'.kernel.resume p = s.kernel.resume p ∧ s'.insignal p = s.insignal p ∧
        s'.signal_handlers p = s.signal_handlers p) ∧
      s'.kernel.tab.first = s.kernel.tab.first ∧ s'.kernel.tab.last = s.kernel.tab.last ∧
      s'.kernel.totalTickets = s.kernel.totalTickets ∧ s'.kernel.rng = s.kernel.rng ∧
      s'.kernel.nextpid = s.kernel.nextpid ∧ s'.kernel.ticks = s.kernel.ticks ∧
      s'.kernel.initproc = s.kernel.initproc ∧ s'.kernel.lock = s.kernel.lock ∧ s'.kernel.cpu = s.kernel.cpu ∧
      s'.kernel.np = s.kernel.np)
    ⟨fun ⟨a, b, c, d, e, f, g, h, i, j, k, l⟩ => ⟨a, b, c, d, e, f, g, h, i, j, k, l⟩,
      fun ⟨a, b, c, d, e, f, g, h, i, j, k, l⟩ => ⟨a, b, c, d, e, f, g, h, i, j, k, l⟩⟩

/-! ## Where the fields of a child come from -/

variable {s s' t : SigKernel ncpu} {tr tr' : List (SigKernel ncpu × SigEvent ncpu)}

/-- A store to other fields of one process. -/
theorem touch_tidy (inv : Inv b False k) (tidy : ∀ p, Tidy k p) (f : Proc → Proc) (state : ∀ q, (f q).state = q.state)
    (pid : ∀ q, (f q).pid = q.pid) (parent : ∀ q, (f q).parent = q.parent) (chan : ∀ q, (f q).chan = q.chan)
    (next : ∀ q, (f q).rrnext = q.rrnext) (prev : ∀ q, (f q).rrprev = q.rrprev) (p : Slot) :
    Inv b False { k with tab := k.tab.modify p f } ∧ ∀ q, Tidy { k with tab := k.tab.modify p f } q := by
  have woken : Awakens k.tab (k.tab.modify p f) := .modify k.tab p f (state _) (pid _) (parent _) (chan _)
  exact ⟨inv.wakes nofun (.modify k.tab p f (state _) (next _) (prev _)), fun q => (tidy q).awakens woken rfl rfl⟩

/-- Every reachable state is well formed, and its channels are tidy. -/
theorem run_tidy (run : Run (sigStep b) (sigBoot b ncpu) tr s) : Inv b False s.kernel ∧ ∀ p, Tidy s.kernel p := by
  refine run.invariant_all (fun s => Inv b False s.kernel ∧ ∀ p, Tidy s.kernel p) ⟨boot_good nofun, ?_⟩ ?_
  · intro p
    refine .of_null ?_
    show ((makeRunnable b _ 0).proc p).chan = _
    rw [(Awakens.makeRunnable_fields b _ 0 p).2.2, modify_data _ 0 p Proc.chan _ rfl]
    rfl
  · rintro s e s' ⟨inv, tidy⟩ taken
    cases e with
    | kernel e =>
      obtain ⟨k, stepped, rfl⟩ := Option.map_eq_some_iff.1 taken
      exact ⟨step_good nofun inv nofun stepped, step_tidy inv tidy stepped⟩
    | signal c signum handler =>
      obtain ⟨p, _, rfl⟩ := Option.map_eq_some_iff.1 taken
      unfold signal
      split_ifs <;> exact ⟨inv, tidy⟩
    | handleSignals c =>
      obtain ⟨p, _, rfl⟩ := Option.map_eq_some_iff.1 taken
      unfold handleSignals
      dsimp only
      split_ifs
      · let taken (q : Proc) : Proc := { q with
          pending := q.pending &&& ~~~ ((1 : BitVec 32) <<< (Signal.getLowestSetBit (s.kernel.tab.proc p).pending).toNat) }
        exact touch_tidy inv tidy taken (fun _ => rfl) (fun _ => rfl) (fun _ => rfl) (fun _ => rfl) (fun _ => rfl)
          (fun _ => rfl) p
      · exact ⟨inv, tidy⟩
    | sigreturn c =>
      obtain ⟨p, _, rfl⟩ := Option.map_eq_some_iff.1 taken
      exact ⟨inv, tidy⟩
    | fault c =>
      obtain ⟨p, _, rfl⟩ := Option.map_eq_some_iff.1 taken
      exact touch_tidy inv tidy (fun q => { q with killed := true }) (fun _ => rfl) (fun _ => rfl) (fun _ => rfl)
        (fun _ => rfl) (fun _ => rfl) (fun _ => rfl) p

/-- When `fork` succeeds: the slot it takes is the first unused one. -/
theorem fork_eq_some : fork b s c = some (t, q) ↔ ∃ p, s.kernel.current c = some p ∧ s.kernel.lock = none ∧
    slots.find? (fun r => (s.kernel.tab.proc r).state = .unused) = some q ∧
    t = { s with kernel := forkDone b (allocproc s.kernel p) p q } := by
  cases current : s.kernel.current c with
  | none => simp [fork, current]
  | some p =>
    have runs := current_run current
    have outside : s.kernel.np p = none := by
      unfold Kernel.current at current
      rw [runs] at current
      by_contra inside
      simp [inside] at current
    by_cases free : s.kernel.lock = none
    · cases found : slots.find? (fun r => (s.kernel.tab.proc r).state = .unused) with
      | none => simp [fork, step, current, guard, free, allocproc, found, outside]
      | some r =>
        simp only [fork, step, current, guard, free, allocproc, found, runs, Option.bind_eq_bind, Option.bind_some,
          if_true, Function.update_self, Option.map_some, Option.pure_def, Option.some.injEq, Prod.mk.injEq]
        constructor
        · rintro ⟨rfl, rfl⟩
          exact ⟨p, rfl, trivial, rfl, rfl⟩
        · rintro ⟨_, rfl, _, rfl, rfl⟩
          exact ⟨rfl, rfl⟩
    · simp [fork, step, current, guard, free]

/-- `fork` stores to none of these fields of the child. -/
theorem fork_fields (forked : fork b s c = some (t, q)) : t.sigFields q = s.sigFields q ∧ t.chan q = s.chan q := by
  obtain ⟨p, _, _, found, rfl⟩ := fork_eq_some.1 forked
  have kept {β : Type} (f : Proc → β) (blindState : ∀ r a, f { r with state := a } = f r)
      (blindNext : ∀ r a, f { r with rrnext := a } = f r) (blindPrev : ∀ r a, f { r with rrprev := a } = f r)
      (blindAlloc : ∀ r n x, f { r with state := .embryo, pid := n, ctime := x } = f r)
      (blindFork : ∀ r x y z, f { r with
        parent := x, runQuanta := 0, rutime := 0, ctime := y, ttime := 0, stime := 0, retime := 0, priority := z } = f r) :
      f ((forkDone b (allocproc s.kernel p) p q).tab.proc q) = f (s.kernel.tab.proc q) := by
    unfold forkDone
    rw [Awakens.makeRunnable_data b _ q q f blindState blindNext blindPrev, modify_proc_self, blindFork]
    unfold allocproc
    rw [found]
    dsimp only
    rw [modify_proc_self, blindAlloc]
  have killed := kept Proc.killed (fun _ _ => rfl) (fun _ _ => rfl) (fun _ _ => rfl) (fun _ _ _ => rfl) (fun _ _ _ _ => rfl)
  have pending := kept Proc.pending (fun _ _ => rfl) (fun _ _ => rfl) (fun _ _ => rfl) (fun _ _ _ => rfl) (fun _ _ _ _ => rfl)
  have chan := kept Proc.chan (fun _ _ => rfl) (fun _ _ => rfl) (fun _ _ => rfl) (fun _ _ _ => rfl) (fun _ _ _ _ => rfl)
  refine ⟨?_, chan⟩
  simp only [SigKernel.sigFields, killed, pending]

theorem Agree.current (agree : Agree s s') (c : Fin ncpu) : s'.kernel.current c = s.kernel.current c := by
  rw [Kernel.current, Kernel.current, agree.cpu, agree.np]

/-- **What a child starts with.** In two reachable states that agree on all but the leftovers of unused slots, the
same parent's `fork` takes the same slot. The children agree on `killed`, `pending`, `insignal`, `signal_handlers` and
`chan` exactly when the leftovers of that slot agree on the first four; and a child starts neither killed nor with a
pending signal exactly when its slot was left so. -/
theorem fork_independent_iff (run : Run (sigStep b) (sigBoot b ncpu) tr s)
    (run' : Run (sigStep b) (sigBoot b ncpu) tr' s') (agree : Agree s s') (forked : fork b s c = some (t, q)) :
    ∃ t', fork b s' c = some (t', q) ∧
      (t'.sigFields q = t.sigFields q ∧ t'.chan q = t.chan q ↔ s'.sigFields q = s.sigFields q) ∧
      ((t.sigFields q).killed = false ∧ (t.sigFields q).pending = 0 ↔
        (s.sigFields q).killed = false ∧ (s.sigFields q).pending = 0) := by
  obtain ⟨p, current, free, found, made⟩ := fork_eq_some.1 forked
  obtain ⟨fields, chan⟩ := fork_fields forked
  have forked' : fork b s' c = some ({ s' with kernel := forkDone b (allocproc s'.kernel p) p q }, q) := by
    refine fork_eq_some.2 ⟨p, (agree.current c).trans current, agree.lock.trans free, ?_, rfl⟩
    simpa only [agree.state] using found
  obtain ⟨fields', chan'⟩ := fork_fields forked'
  refine ⟨_, forked', ?_, by rw [fields]⟩
  have unused : (s.kernel.tab.proc q).state = .unused := by simpa using List.find?_some found
  have null : s.chan q = .null := ((run_tidy run).2 q).null_of_state (run_tidy run).1 (by rw [unused]; decide)
  have null' : s'.chan q = .null := by
    refine ((run_tidy run').2 q).null_of_state (run_tidy run').1 ?_
    rw [agree.state, unused]
    decide
  rw [fields, fields', chan, chan', null, null']
  exact and_iff_left rfl

/-- The first process forks and waits, and its child runs. Every system call ends in `handleSignals`. -/
def childRuns : List (SigEvent 1) :=
  [.kernel (.schedule 0), .kernel (.resume 0), .kernel (.allocproc 0), .kernel (.forkDone 0), .handleSignals 0,
    .kernel (.wait 0), .kernel (.back 0), .kernel (.schedule 0), .kernel (.resume 0)]

/-- The child exits and is reaped. -/
def childReaped : List (SigEvent 1) :=
  [.kernel (.exit 0), .kernel (.back 0), .kernel (.schedule 0), .kernel (.resume 0), .handleSignals 0]

/-- The child does nothing else. -/
def cleanSlot : List (SigEvent 1) := childRuns ++ childReaped

/-- The child installs a handler for signal 3, sends the signal to itself and gets it. -/
def signalTaken : List (SigEvent 1) :=
  [.signal 0 3 4096, .handleSignals 0, .kernel (.sigsend 0 2 3), .handleSignals 0]

/-- The child takes a signal, returns from the handler, removes it and changes its priority. -/
def tidiedSlot : List (SigEvent 1) :=
  childRuns ++ (signalTaken ++ ([.sigreturn 0, .handleSignals 0, .signal 0 3 0, .handleSignals 0,
    .kernel (.priority 0 5), .handleSignals 0] ++ childReaped))

/-- In its handler the child sends the signal again, which waits for the return, and exits; after it is reaped the
parent kills pid 0. -/
def usedSlot : List (SigEvent 1) :=
  childRuns ++ (signalTaken ++ ([.kernel (.sigsend 0 2 3), .handleSignals 0] ++
    (childReaped ++ [.kernel (.kill 0 0), .handleSignals 0])))

/-- The slot of the child that tidied up has another priority left in it, and the next child starts with the same
signal fields: neither killed nor with a pending signal. -/
theorem fork_independent_tidiedSlot : ∃ s s' t t' q, exec (sigStep .frr) (sigBoot .frr 1) cleanSlot = some s ∧
    exec (sigStep .frr) (sigBoot .frr 1) tidiedSlot = some s' ∧
    (s'.kernel.tab.proc q).priority ≠ (s.kernel.tab.proc q).priority ∧
    fork .frr s 0 = some (t, q) ∧ fork .frr s' 0 = some (t', q) ∧ t'.sigFields q = t.sigFields q ∧ t'.chan q = t.chan q ∧
    (t.sigFields q).killed = false ∧ (t.sigFields q).pending = 0 := by
  have differ : (exec (sigStep .frr) (sigBoot .frr 1) cleanSlot).any (fun s =>
      (exec (sigStep .frr) (sigBoot .frr 1) tidiedSlot).any fun s' => Agree s s' ∧
        ((fork .frr s 0).any fun (_, q) => (s'.kernel.tab.proc q).priority ≠ (s.kernel.tab.proc q).priority ∧
          s.sigFields q = ⟨false, 0, 0, fun _ => 0⟩ ∧ (s'.sigFields q).killed = false ∧ (s'.sigFields q).pending = 0 ∧
          (s'.sigFields q).insignal = 0 ∧ ∀ i, (s'.sigFields q).signal_handlers i = 0)) = true := by
    decide +kernel
  obtain ⟨s, done, rest⟩ := Option.any_eq_true .. |>.1 differ
  obtain ⟨s', done', rest⟩ := Option.any_eq_true .. |>.1 rest
  simp only [decide_eq_true_eq] at rest
  obtain ⟨agree, forks⟩ := rest
  obtain ⟨⟨t, q⟩, forked, rest⟩ := Option.any_eq_true .. |>.1 forks
  simp only [decide_eq_true_eq] at rest
  obtain ⟨other, left, killed, pending, insignal, handlers⟩ := rest
  obtain ⟨t', forked', fields, starts⟩ := fork_independent_iff (run_of_exec done) (run_of_exec done') agree forked
  obtain ⟨same, chan⟩ := fields.2 (by rw [left]; exact SigFields.ext killed pending insignal (funext handlers))
  exact ⟨s, s', t, t', q, done, done', other, forked, forked', same, chan, starts.2 (by simp [left])⟩

/-- After one of the two histories the next child starts killed, with signal 3 pending and a handler for it, and as if
inside that handler; after the other it starts with none of this. -/
theorem fork_inherits_leftovers : ∃ tr tr' s s' t t' q,
    Run (sigStep .frr) (sigBoot .frr 1) tr s ∧ Run (sigStep .frr) (sigBoot .frr 1) tr' s' ∧ Agree s s' ∧
    fork .frr s 0 = some (t, q) ∧ fork .frr s' 0 = some (t', q) ∧
    t.sigFields q = ⟨false, 0, 0, fun _ => 0⟩ ∧
    t'.sigFields q = ⟨true, 8, 1, Function.update (fun _ => 0) 3 4096⟩ := by
  have differ : (exec (sigStep .frr) (sigBoot .frr 1) cleanSlot).any (fun s =>
      (exec (sigStep .frr) (sigBoot .frr 1) usedSlot).any fun s' => Agree s s' ∧
        ((fork .frr s 0).any fun (t, q) => (fork .frr s' 0).any fun (t', q') => q' = q ∧
          t.sigFields q = ⟨false, 0, 0, fun _ => 0⟩ ∧
          t'.sigFields q = ⟨true, 8, 1, Function.update (fun _ => 0) 3 4096⟩)) = true := by
    decide +kernel
  obtain ⟨s, done, rest⟩ := Option.any_eq_true .. |>.1 differ
  obtain ⟨s', done', rest⟩ := Option.any_eq_true .. |>.1 rest
  simp only [decide_eq_true_eq] at rest
  obtain ⟨agree, forks⟩ := rest
  obtain ⟨⟨t, q⟩, forked, rest⟩ := Option.any_eq_true .. |>.1 forks
  obtain ⟨⟨t', q'⟩, forked', rest⟩ := Option.any_eq_true .. |>.1 rest
  simp only [decide_eq_true_eq] at rest
  obtain ⟨rfl, fields, fields'⟩ := rest
  exact ⟨_, _, s, s', t, t', _, run_of_exec done, run_of_exec done', agree, forked, forked', fields, fields'⟩

end Xv6.Sched
