import Xv6.Sched.Tree

/-!
# Parents and reaping

In every state of every run a process that has started and is not `init` has a
living parent, and nobody who is blocked in `wait` or `wait_stat` has a zombie
child. Over the whole run a process that exited is either a zombie whose pid no
call has returned, or its pid was returned once, to its parent of that moment.
-/

namespace Xv6.Sched

open Xv6.Lib

variable {ncpu : Nat} {b : Build} {k k' : Kernel ncpu} {e : Event ncpu} {c : Fin ncpu} {p q me : Slot}

/-! ## Parents -/

/-- The process in the slot has started: it is `RUNNABLE`, `RUNNING`, `SLEEPING` or `ZOMBIE`. -/
def Kernel.Started (k : Kernel ncpu) (p : Slot) : Prop := k.stage p = .alive ∨ k.stage p = .zombie

theorem started_iff : k.Started p ↔ (k.tab.proc p).state ∈ [.runnable, .running, .sleeping, .zombie] := by
  rw [Kernel.Started, Kernel.stage]
  cases (k.tab.proc p).state <;> simp [ProcState.stage]

theorem zombie_iff : k.stage p = .zombie ↔ (k.tab.proc p).state = .zombie := by
  rw [Kernel.stage]
  cases (k.tab.proc p).state <;> simp [ProcState.stage]

structure Family (k : Kernel ncpu) : Prop where
  init : k.stage k.initproc = .alive
  parent : ∀ p, k.Started p → p ≠ k.initproc → ∃ q, k.parent p = some q ∧ k.stage q = .alive ∧ q ≠ p
  childless : ∀ p, Blocked k p → ∀ q, k.parent q = some p → k.stage q ≠ .zombie

theorem Blocked.alive (blocked : Blocked k p) : k.stage p = .alive := by
  rw [Kernel.stage, blocked.1.1]
  rfl

theorem Same.started (same : Same k k' p) : k'.Started p ↔ k.Started p := by
  rw [Kernel.Started, Kernel.Started, same.stage]

/-- The family when the only slot that changes is `q`, which nobody has as a living parent. -/
theorem Family.others (family : Family k) (init : k'.initproc = k.initproc) (others : ∀ p ≠ q, Same k k' p)
    (before : k.stage q ≠ .alive) (mine : k'.Started q → ∃ r, k'.parent q = some r ∧ k.stage r = .alive)
    (awake : ¬ Blocked k' q) (notZombie : k'.stage q ≠ .zombie) : Family k' where
  init := by
    have ne : k.initproc ≠ q := fun same => before (same ▸ family.init)
    rw [init, (others _ ne).stage]
    exact family.init
  parent := by
    intro p started notInit
    rcases eq_or_ne p q with rfl | ne
    · obtain ⟨r, parent, alive⟩ := mine started
      have other : r ≠ p := fun same => before (same ▸ alive)
      exact ⟨r, parent, (others r other).stage.trans alive, other⟩
    · obtain ⟨r, parent, alive, other⟩ := family.parent p ((others p ne).started.1 started) (init ▸ notInit)
      have kept : r ≠ q := fun same => before (same ▸ alive)
      exact ⟨r, (others p ne).parent.trans parent, (others r kept).stage.trans alive, other⟩
  childless := by
    intro p blocked r child zombie
    have ne : p ≠ q := fun same => awake (same ▸ blocked)
    have other : r ≠ q := fun same => notZombie (same ▸ zombie)
    rw [(others r other).parent] at child
    rw [(others r other).stage] at zombie
    exact family.childless p ((others p ne).blocked blocked) r child zombie

/-- **A step keeps the family.** -/
theorem Family.change (family : Family k) (init : k'.initproc = k.initproc) (change : Change k e k') : Family k' := by
  cases change with
  | quiet same =>
    refine ⟨by rw [init, (same _).stage]; exact family.init, ?_, ?_⟩
    · intro p started notInit
      obtain ⟨r, parent, alive, other⟩ := family.parent p ((same p).started.1 started) (init ▸ notInit)
      exact ⟨r, (same p).parent.trans parent, (same r).stage.trans alive, other⟩
    · intro p blocked q child
      rw [(same q).parent] at child
      rw [(same q).stage]
      exact family.childless p ((same p).blocked blocked) q child
  | block me stage stage' pid parent childless others =>
    have stages := kept_of_others (stage'.trans stage.symm) fun p ne => (others p ne).stage
    have parents := kept_of_others parent fun p ne => (others p ne).parent
    refine ⟨by rw [init, stages]; exact family.init, ?_, ?_⟩
    · intro p started notInit
      rw [Kernel.Started, stages] at started
      obtain ⟨r, isParent, alive, other⟩ := family.parent p started (init ▸ notInit)
      exact ⟨r, (parents p).trans isParent, (stages r).trans alive, other⟩
    · intro p blocked q child
      rw [parents] at child
      rw [stages]
      rcases eq_or_ne p me with rfl | ne
      · exact childless q child
      · exact family.childless p ((others p ne).blocked blocked) q child
  | reap me q reaps child dead gone orphan others =>
    refine family.others init others (by rw [dead]; decide) ?_ ?_ (by rw [gone]; decide)
    · rintro (alive | zombie) <;> simp_all
    · intro blocked
      cases gone.symm.trans blocked.alive
  | alloc q free new pid parent others =>
    refine family.others init others (by rw [free]; decide) ?_ ?_ (by rw [new]; decide)
    · rintro (alive | zombie) <;> simp_all
    · intro blocked
      cases new.symm.trans blocked.alive
  | abandon q new free parent others =>
    refine family.others init others (by rw [new]; decide) ?_ ?_ (by rw [free]; decide)
    · rintro (alive | zombie) <;> simp_all
    · intro blocked
      cases free.symm.trans blocked.alive
  | born p q alive new started parent pid awake others =>
    exact family.others init others (by rw [new]; decide) (fun _ => ⟨p, parent, alive⟩) awake (by rw [started]; decide)
  | exit me exits alive notInit dead stages pid parent blocked parentAwake initAwake =>
    have initAlive : k'.stage k.initproc = .alive := (stages _ notInit.symm).trans family.init
    refine ⟨init ▸ initAlive, ?_, ?_⟩
    · intro p started other
      rw [init] at other
      have before : k.Started p := by
        rcases eq_or_ne p me with rfl | ne
        · exact .inl alive
        · rw [Kernel.Started, stages p ne] at started
          exact started
      obtain ⟨r, isParent, living, ne⟩ := family.parent p before other
      by_cases left : r = me
      · exact ⟨k.initproc, by rw [parent, if_pos (left ▸ isParent)], initAlive, other.symm⟩
      · refine ⟨r, ?_, (stages r left).trans living, ne⟩
        rw [parent, if_neg (by rw [isParent]; exact fun same => left (Option.some.inj same)), isParent]
    · intro p asleep q child zombie
      rw [parent] at child
      by_cases adopted : k.parent q = some me
      · -- a child of the process that exits is now a child of `init`
        rw [if_pos adopted, Option.some.injEq] at child
        subst child
        rcases eq_or_ne q me with rfl | ne
        · obtain ⟨r, isParent, _, other⟩ := family.parent q (.inl alive) notInit
          exact other (Option.some.inj (isParent.symm.trans adopted))
        · exact initAwake ⟨q, adopted, (stages q ne).symm.trans zombie⟩ asleep
      · rw [if_neg adopted] at child
        rcases eq_or_ne q me with rfl | ne
        · exact parentAwake p child asleep
        · exact family.childless p (blocked p asleep) q child ((stages q ne).symm.trans zombie)

/-- Nothing changes which slot is `init`. -/
theorem step_initproc (inv : Inv b False k) (taken : step b k e = some k') : k'.initproc = k.initproc := by
  have body (k : Kernel ncpu) (c : Fin ncpu) (me : Slot) (clear : Proc → Proc) (r : Resume) :
      (waitBody k c me clear r).initproc = k.initproc := by
    unfold waitBody
    split
    · rfl
    · split <;> rfl
  cases step_cases taken with
  | schedule _ _ round =>
    obtain ⟨l, ready, _⟩ := inv.queue
    obtain ⟨t, total, g, _, released | ⟨q, _, switched⟩⟩ := schedule_cases ready b _
    · cases released.symm.trans round
      rfl
    · cases switched.symm.trans round
      rfl
  | scan at_ =>
    unfold scan
    split
    · dsimp only
      split <;> rfl
    · rfl
  | resume at_ =>
    unfold resume
    dsimp only
    split
    · rfl
    · rfl
    · rfl
    · exact body ..
    · exact body ..
  | wait | waitStat => exact body ..
  | allocproc =>
    unfold allocproc
    split <;> rfl
  | _ => rfl

theorem boot_proc_ne (b : Build) (ncpu : Nat) (ne : p ≠ 0) :
    ((boot b ncpu).tab.proc p).state = .unused ∧ (boot b ncpu).pid p = 0 ∧ (boot b ncpu).parent p = none := by
  obtain ⟨pid, parent, _⟩ := Awakens.makeRunnable_fields b (Table.zero.modify 0 fun q => { q with pid := 1 }) 0 p
  refine ⟨?_, ?_, ?_⟩
  · simp [boot, makeRunnable_state, ne, modify_proc_ne, Table.zero]
  · rw [modify_proc_ne _ _ _ ne] at pid
    exact pid
  · rw [modify_proc_ne _ _ _ ne] at parent
    exact parent

theorem boot_stage (b : Build) (ncpu : Nat) (p : Slot) :
    (boot b ncpu).stage p = if p = 0 then .alive else .unused := by
  by_cases first : p = 0
  · subst first
    simp [Kernel.stage, boot, makeRunnable_state, ProcState.stage]
  · rw [if_neg first, Kernel.stage, (boot_proc_ne b ncpu first).1]
    rfl

theorem boot_family (b : Build) (ncpu : Nat) : Family (boot b ncpu) where
  init := boot_stage b ncpu 0
  parent := by
    intro p started notInit
    rw [Kernel.Started, boot_stage, if_neg (show p ≠ 0 from notInit)] at started
    simp at started
  childless := by
    intro p _ q _ zombie
    rw [boot_stage] at zombie
    split_ifs at zombie

theorem run_family {tr : List (Kernel ncpu × Event ncpu)} (run : Run (step b) (boot b ncpu) tr k) : Family k := by
  have both : Inv b False k ∧ Family k := by
    refine run.invariant_all (fun k => Inv b False k ∧ Family k) ⟨boot_good nofun, boot_family b ncpu⟩ ?_
    rintro k e k' ⟨inv, family⟩ taken
    exact ⟨step_good nofun inv nofun taken, family.change (step_initproc inv taken) (step_change inv taken)⟩
  exact both.2

/-! ## Pids that exited, pids that were returned -/

/-- The pids of the processes that exited in the run, in order. -/
def exits (tr : List (Kernel ncpu × Event ncpu)) : List Int := tr.filterMap fun q => exited q.1 q.2

/-- The pids that calls of `wait` and `wait_stat` returned in the run, in order. -/
def returns (tr : List (Kernel ncpu × Event ncpu)) : List Int :=
  tr.filterMap fun q => (reaped q.1 q.2).map fun r => q.1.pid r.2

/-- The two lists and the table together. -/
structure Accounts (exits returns : List Int) (k : Kernel ncpu) : Prop where
  fresh : ∀ p, k.stage p ≠ .unused → k.pid p < k.nextpid
  distinct : ∀ p q, k.stage p ≠ .unused → k.stage q ≠ .unused → k.pid p = k.pid q → p = q
  past : ∀ x ∈ exits, x < k.nextpid
  living : ∀ p, k.stage p = .embryo ∨ k.stage p = .alive → k.pid p ∉ exits
  dead : ∀ p, k.stage p = .zombie → k.pid p ∈ exits ∧ k.pid p ∉ returns
  returned : ∀ x ∈ returns, x ∈ exits
  exitsOnce : exits.Nodup
  returnsOnce : returns.Nodup
  owed : ∀ x ∈ exits, x ∈ returns ∨ ∃ p, k.stage p = .zombie ∧ k.pid p = x

/-- The accounts look at the pids, at which slots are used, and at which of them hold a zombie. -/
theorem Accounts.congr {xs rs : List Int} (acc : Accounts xs rs k) (pid : ∀ p, k'.pid p = k.pid p)
    (used : ∀ p, k'.stage p = .unused ↔ k.stage p = .unused) (zombie : ∀ p, k'.stage p = .zombie ↔ k.stage p = .zombie)
    (lives : ∀ p, k'.stage p = .embryo ∨ k'.stage p = .alive ↔ k.stage p = .embryo ∨ k.stage p = .alive)
    (nextpid : k'.nextpid = k.nextpid) : Accounts xs rs k' where
  fresh p := by rw [pid, nextpid, Ne, used]; exact acc.fresh p
  distinct p q := by rw [pid, pid, Ne, Ne, used, used]; exact acc.distinct p q
  past := nextpid ▸ acc.past
  living p := by rw [pid, lives]; exact acc.living p
  dead p := by rw [pid, zombie]; exact acc.dead p
  returned := acc.returned
  exitsOnce := acc.exitsOnce
  returnsOnce := acc.returnsOnce
  owed := by simpa only [pid, zombie] using acc.owed

theorem Accounts.same {xs rs : List Int} (acc : Accounts xs rs k) (stage : ∀ p, k'.stage p = k.stage p)
    (pid : ∀ p, k'.pid p = k.pid p) (nextpid : k'.nextpid = k.nextpid) : Accounts xs rs k' :=
  acc.congr pid (fun p => by rw [stage]) (fun p => by rw [stage]) (fun p => by rw [stage]) nextpid

/-- A slot is given back; `rs'` are the pids returned so far. -/
theorem Accounts.free {xs rs rs' : List Int} (acc : Accounts xs rs k) (gone : k'.stage q = .unused)
    (others : ∀ p ≠ q, Same k k' p) (nextpid : k'.nextpid = k.nextpid)
    (dead : ∀ p ≠ q, k.stage p = .zombie → k.pid p ∉ rs') (returned : ∀ x ∈ rs', x ∈ xs) (once : rs'.Nodup)
    (owed : ∀ x ∈ xs, x ∈ rs' ∨ ∃ p ≠ q, k.stage p = .zombie ∧ k.pid p = x) : Accounts xs rs' k' := by
  have other {p : Slot} (used : k'.stage p ≠ .unused) : p ≠ q := fun same => used (same ▸ gone)
  have still {p : Slot} (used : k'.stage p ≠ .unused) : k.stage p ≠ .unused := (others p (other used)).stage ▸ used
  have pid {p : Slot} (used : k'.stage p ≠ .unused) : k'.pid p = k.pid p := (others p (other used)).pid
  refine ⟨?_, ?_, nextpid ▸ acc.past, ?_, ?_, returned, acc.exitsOnce, once, ?_⟩
  · intro p used
    rw [pid used, nextpid]
    exact acc.fresh p (still used)
  · intro p r used used' same
    rw [pid used, pid used'] at same
    exact acc.distinct p r (still used) (still used') same
  · intro p lives
    have used : k'.stage p ≠ .unused := by rcases lives with h | h <;> rw [h] <;> decide
    rw [pid used]
    rw [(others p (other used)).stage] at lives
    exact acc.living p lives
  · intro p zombie
    have used : k'.stage p ≠ .unused := by rw [zombie]; decide
    rw [pid used]
    rw [(others p (other used)).stage] at zombie
    exact ⟨(acc.dead p zombie).1, dead p (other used) zombie⟩
  · intro x member
    refine (owed x member).imp_right ?_
    rintro ⟨p, ne, zombie, rfl⟩
    exact ⟨p, (others p ne).stage.trans zombie, (others p ne).pid⟩

/-- A slot is given back by a process that never started. -/
theorem Accounts.abandon {xs rs : List Int} (acc : Accounts xs rs k) (new : k.stage q = .embryo)
    (gone : k'.stage q = .unused) (others : ∀ p ≠ q, Same k k' p) (nextpid : k'.nextpid = k.nextpid) :
    Accounts xs rs k' := by
  refine acc.free gone others nextpid (fun p _ zombie => (acc.dead p zombie).2) acc.returned acc.returnsOnce ?_
  intro x member
  refine (acc.owed x member).imp_right ?_
  rintro ⟨p, zombie, rfl⟩
  refine ⟨p, ?_, zombie, rfl⟩
  rintro rfl
  cases new.symm.trans zombie

/-- A child is reaped. -/
theorem Accounts.reap {xs rs : List Int} (acc : Accounts xs rs k) (zombie : k.stage q = .zombie)
    (gone : k'.stage q = .unused) (others : ∀ p ≠ q, Same k k' p) (nextpid : k'.nextpid = k.nextpid) :
    Accounts xs (rs ++ [k.pid q]) k' := by
  obtain ⟨left, unreturned⟩ := acc.dead q zombie
  refine acc.free gone others nextpid ?_ ?_ ?_ ?_
  · intro p other dead
    have ne : k.pid p ≠ k.pid q := fun same =>
      other (acc.distinct p q (by rw [dead]; decide) (by rw [zombie]; decide) same)
    simp [(acc.dead p dead).2, ne]
  · intro x member
    rcases List.mem_append.1 member with old | new
    · exact acc.returned x old
    · rw [List.mem_singleton.1 new]
      exact left
  · exact acc.returnsOnce.append (List.nodup_singleton _) (by simpa using unreturned)
  · intro x member
    rcases acc.owed x member with old | ⟨p, dead, rfl⟩
    · exact .inl (List.mem_append_left _ old)
    · rcases eq_or_ne p q with rfl | ne
      · exact .inl (by simp)
      · exact .inr ⟨p, ne, dead, rfl⟩

/-- A process exits. -/
theorem Accounts.exit {xs rs : List Int} (acc : Accounts xs rs k) (alive : k.stage me = .alive)
    (dead : k'.stage me = .zombie) (stages : ∀ p ≠ me, k'.stage p = k.stage p) (pid : ∀ p, k'.pid p = k.pid p)
    (nextpid : k'.nextpid = k.nextpid) : Accounts (xs ++ [k.pid me]) rs k' := by
  have still {p : Slot} (used : k'.stage p ≠ .unused) : k.stage p ≠ .unused := by
    rcases eq_or_ne p me with rfl | ne
    · rw [alive]; decide
    · exact stages p ne ▸ used
  have mine : k.stage me ≠ .unused := by rw [alive]; decide
  have living := acc.living me (.inr alive)
  have ne {p : Slot} (used : k.stage p ≠ .unused) (other : p ≠ me) : k.pid p ≠ k.pid me := fun same =>
    other (acc.distinct p me used mine same)
  refine ⟨?_, ?_, ?_, ?_, ?_, ?_, ?_, acc.returnsOnce, ?_⟩
  · intro p used
    rw [pid, nextpid]
    exact acc.fresh p (still used)
  · intro p r used used' same
    rw [pid, pid] at same
    exact acc.distinct p r (still used) (still used') same
  · intro x member
    rw [nextpid]
    rcases List.mem_append.1 member with old | new
    · exact acc.past x old
    · rw [List.mem_singleton.1 new]
      exact acc.fresh me mine
  · intro p lives
    have other : p ≠ me := by
      rintro rfl
      rw [dead] at lives
      simp at lives
    rw [stages p other] at lives
    have used : k.stage p ≠ .unused := by rcases lives with h | h <;> rw [h] <;> decide
    rw [pid]
    simp [acc.living p lives, ne used other]
  · intro p zombie
    rw [pid]
    rcases eq_or_ne p me with rfl | other
    · exact ⟨by simp, fun back => living (acc.returned _ back)⟩
    · rw [stages p other] at zombie
      obtain ⟨exited, waiting⟩ := acc.dead p zombie
      exact ⟨List.mem_append_left _ exited, waiting⟩
  · intro x member
    exact List.mem_append_left _ (acc.returned x member)
  · exact acc.exitsOnce.append (List.nodup_singleton _) (by simpa using living)
  · intro x member
    rcases List.mem_append.1 member with old | new
    · refine (acc.owed x old).imp_right ?_
      rintro ⟨p, zombie, rfl⟩
      have other : p ≠ me := by
        rintro rfl
        cases alive.symm.trans zombie
      exact ⟨p, (stages p other).trans zombie, pid p⟩
    · rw [List.mem_singleton.1 new]
      exact .inr ⟨me, dead, pid me⟩

/-- A slot is taken, with a new pid. -/
theorem Accounts.alloc {xs rs : List Int} (acc : Accounts xs rs k) (free : k.stage q = .unused)
    (new : k'.stage q = .embryo) (pid : k'.pid q = k.nextpid) (others : ∀ p ≠ q, Same k k' p)
    (nextpid : k'.nextpid = k.nextpid + 1) : Accounts xs rs k' := by
  have fresh {p : Slot} (ne : p ≠ q) (used : k'.stage p ≠ .unused) : k'.pid p < k.nextpid := by
    rw [(others p ne).pid]
    exact acc.fresh p ((others p ne).stage ▸ used)
  refine ⟨?_, ?_, ?_, ?_, ?_, acc.returned, acc.exitsOnce, acc.returnsOnce, ?_⟩
  · intro p used
    rw [nextpid]
    rcases eq_or_ne p q with rfl | ne
    · omega
    · have := fresh ne used
      omega
  · intro p r used used' same
    rcases eq_or_ne p q with rfl | ne <;> rcases eq_or_ne r p with rfl | ne'
    · rfl
    · have := fresh ne' used'
      omega
    · rfl
    · rcases eq_or_ne r q with rfl | other
      · have := fresh ne used
        omega
      · rw [(others p ne).pid, (others r other).pid] at same
        exact acc.distinct p r ((others p ne).stage ▸ used) ((others r other).stage ▸ used') same
  · intro x member
    have := acc.past x member
    omega
  · intro p lives
    rcases eq_or_ne p q with rfl | ne
    · rw [pid]
      exact fun member => absurd (acc.past _ member) (by omega)
    · rw [(others p ne).pid]
      rw [(others p ne).stage] at lives
      exact acc.living p lives
  · intro p zombie
    have ne : p ≠ q := by
      rintro rfl
      cases new.symm.trans zombie
    rw [(others p ne).pid]
    rw [(others p ne).stage] at zombie
    exact acc.dead p zombie
  · intro x member
    refine (acc.owed x member).imp_right ?_
    rintro ⟨p, zombie, rfl⟩
    have ne : p ≠ q := by
      rintro rfl
      cases free.symm.trans zombie
    exact ⟨p, (others p ne).stage.trans zombie, (others p ne).pid⟩

/-- A process starts. -/
theorem Accounts.born {xs rs : List Int} (acc : Accounts xs rs k) (new : k.stage q = .embryo)
    (started : k'.stage q = .alive) (pid : k'.pid q = k.pid q) (others : ∀ p ≠ q, Same k k' p)
    (nextpid : k'.nextpid = k.nextpid) : Accounts xs rs k' := by
  refine acc.congr ?_ ?_ ?_ ?_ nextpid <;> intro p <;> rcases eq_or_ne p q with rfl | ne
  · exact pid
  · exact (others p ne).pid
  · simp [new, started]
  · rw [(others p ne).stage]
  · simp [new, started]
  · rw [(others p ne).stage]
  · simp [new, started]
  · rw [(others p ne).stage]

theorem boot_accounts (b : Build) (ncpu : Nat) : Accounts [] [] (boot b ncpu) := by
  have first {p : Slot} (used : (boot b ncpu).stage p ≠ .unused) : p = 0 := by
    by_contra other
    rw [boot_stage, if_neg other] at used
    exact used rfl
  have pid : (boot b ncpu).pid 0 = 1 := by
    have fields := Awakens.makeRunnable_fields b (Table.zero.modify 0 fun q => { q with pid := 1 }) 0 0
    rw [modify_proc_self] at fields
    exact fields.1
  refine ⟨?_, ?_, nofun, fun _ _ => List.not_mem_nil, ?_, nofun, .nil, .nil, nofun⟩
  · intro p used
    rw [first used, pid]
    show (1 : Int) < 2
    decide
  · intro p q used used' _
    rw [first used, first used']
  · intro p zombie
    rw [boot_stage] at zombie
    split_ifs at zombie

/-- **The accounts hold along every run.** -/
theorem run_accounts {tr : List (Kernel ncpu × Event ncpu)} (run : Run (step b) (boot b ncpu) tr k) :
    Accounts (exits tr) (returns tr) k := by
  have both : Inv b False k ∧ Accounts (exits tr) (returns tr) k := by
    refine run.history (fun tr k => Inv b False k ∧ Accounts (exits tr) (returns tr) k)
      ⟨boot_good nofun, boot_accounts b ncpu⟩ ?_
    rintro tr k e k' ⟨inv, acc⟩ taken
    refine ⟨step_good nofun inv nofun taken, ?_⟩
    have exits_eq : exits (tr ++ [(k, e)]) = exits tr ++ (exited k e).toList := by
      cases h : exited k e <;> simp [exits, h]
    have returns_eq : returns (tr ++ [(k, e)]) =
        returns tr ++ ((reaped k e).map fun r => k.pid r.2).toList := by
      cases h : reaped k e <;> simp [returns, h]
    rw [exits_eq, returns_eq]
    cases step_change inv taken with
    | quiet same nextpid noExit noReap =>
      simpa [noExit, noReap] using acc.same (fun p => (same p).stage) (fun p => (same p).pid) nextpid
    | block me stage stage' pid parent childless others nextpid noExit noReap =>
      have stages := kept_of_others (stage'.trans stage.symm) fun p ne => (others p ne).stage
      have pids := kept_of_others pid fun p ne => (others p ne).pid
      simpa [noExit, noReap] using acc.same stages pids nextpid
    | reap me q reaps child dead gone orphan others nextpid noExit =>
      simpa [noExit, reaps] using acc.reap dead gone others nextpid
    | exit me exits alive notInit dead stages pid parent blocked parentAwake initAwake nextpid noReap =>
      simpa [exits, noReap] using acc.exit alive dead stages pid nextpid
    | alloc q free new pid parent others nextpid noExit noReap =>
      simpa [noExit, noReap] using acc.alloc free new pid others nextpid
    | abandon q new free parent others nextpid noExit noReap =>
      simpa [noExit, noReap] using acc.abandon new free others nextpid
    | born p q alive new started parent pid awake others nextpid noExit noReap =>
      simpa [noExit, noReap] using acc.born new started pid others nextpid
  exact both.2

/-- A step that reaps does it for the parent, and the child is a zombie. -/
theorem reaped_child (inv : Inv b False k) (taken : step b k e = some k') (reaps : reaped k e = some (me, q)) :
    k.parent q = some me ∧ k.stage q = .zombie := by
  cases step_change inv taken with
  | reap me' q' reaps' child dead =>
    cases reaps.symm.trans reaps'
    exact ⟨child, dead⟩
  | quiet _ _ _ noReap | block _ _ _ _ _ _ _ _ _ noReap | alloc _ _ _ _ _ _ _ _ noReap
  | abandon _ _ _ _ _ _ _ noReap | born _ _ _ _ _ _ _ _ _ _ _ noReap =>
    cases reaps.symm.trans noReap
  | exit _ _ _ _ _ _ _ _ _ _ _ _ noReap => cases reaps.symm.trans noReap

/-- **The process tree.** In every state that a run visits, every started process but `init` has a parent that is
alive, and nobody who is blocked in `wait` or `wait_stat` has a zombie child. Over the run no process exits
twice; the pid of a process that exited has been returned by exactly one call, or by none and the process is
still a zombie; and a call only returns the pid of a zombie child of its caller. -/
theorem process_tree (b : Build) {tr : List (Kernel ncpu × Event ncpu)} (run : Run (step b) (boot b ncpu) tr k) :
    (∀ s ∈ visited tr k,
      (∀ p, (s.tab.proc p).state ∈ [.runnable, .running, .sleeping, .zombie] → p ≠ s.initproc →
        ∃ q, (s.tab.proc p).parent = some q ∧ (s.tab.proc q).state ∉ [.unused, .zombie]) ∧
      ∀ p, Blocked s p → ∀ q, (s.tab.proc q).parent = some p → (s.tab.proc q).state ≠ .zombie) ∧
    (exits tr).Nodup ∧
    (∀ x ∈ exits tr, (returns tr).count x = 1 ∨
      x ∉ returns tr ∧ ∃ p, (k.tab.proc p).state = .zombie ∧ (k.tab.proc p).pid = x) ∧
    ∀ s e me q, (s, e) ∈ tr → reaped s e = some (me, q) →
      (s.tab.proc q).parent = some me ∧ (s.tab.proc q).state = .zombie ∧ (s.tab.proc q).pid ∈ exits tr := by
  have acc := run_accounts run
  refine ⟨?_, acc.exitsOnce, ?_, ?_⟩
  · intro s member
    obtain ⟨pre, rest, _, reached⟩ := run.prefix_of_visited member
    have family := run_family reached
    refine ⟨?_, ?_⟩
    · intro p started notInit
      obtain ⟨q, parent, alive, _⟩ := family.parent p (started_iff.2 started) notInit
      refine ⟨q, parent, ?_⟩
      intro gone
      rw [Kernel.stage] at alive
      rcases List.mem_pair.1 gone with unused | zombie
      · rw [unused] at alive
        cases alive
      · rw [zombie] at alive
        cases alive
    · intro p blocked q child zombie
      exact family.childless p blocked q child (zombie_iff.2 zombie)
  · intro x member
    by_cases returned : x ∈ returns tr
    · exact .inl (List.count_eq_one_of_mem acc.returnsOnce returned)
    · obtain ⟨p, zombie, pid⟩ := (acc.owed x member).resolve_left returned
      exact .inr ⟨returned, p, zombie_iff.1 zombie, pid⟩
  · intro s e me q member reaps
    obtain ⟨pre, rest, s', rfl, reached, taken⟩ := run.prefix_of_mem member
    obtain ⟨child, dead⟩ := reaped_child (run_good reached) taken reaps
    have before := ((run_accounts reached).dead q dead).1
    refine ⟨child, zombie_iff.1 dead, ?_⟩
    rw [exits, List.filterMap_append]
    exact List.mem_append_left _ before

/-- The first process forks and waits; the child runs and exits; the parent's scan after its sleep reaps it. -/
def forkExitWait : List (Event 1) :=
  [.schedule 0, .resume 0, .allocproc 0, .forkDone 0, .wait 0, .back 0, .schedule 0, .resume 0, .exit 0, .back 0,
    .schedule 0, .resume 0]

/-- The pid of the child is returned once. -/
theorem process_tree_forkExitWait : ∃ k, Run (step .frr) (boot .frr 1) (record (step .frr) (boot .frr 1) forkExitWait) k ∧
    exits (record (step .frr) (boot .frr 1) forkExitWait) = [2] ∧
    (returns (record (step .frr) (boot .frr 1) forkExitWait)).count 2 = 1 := by
  have final : (exec (step .frr) (boot .frr 1) forkExitWait).map (fun k => (k.tab.proc 1).state) = some .unused := by
    decide +kernel
  obtain ⟨k, done, unused⟩ := Option.map_eq_some_iff.1 final
  have exited : exits (record (step .frr) (boot .frr 1) forkExitWait) = [2] := by decide +kernel
  have returned : 2 ∈ returns (record (step .frr) (boot .frr 1) forkExitWait) := by decide +kernel
  obtain ⟨_, _, once, _⟩ := process_tree .frr (run_of_exec done)
  refine ⟨k, run_of_exec done, exited, ?_⟩
  exact (once 2 (by rw [exited]; simp)).resolve_right fun waiting => waiting.1 returned

end Xv6.Sched
