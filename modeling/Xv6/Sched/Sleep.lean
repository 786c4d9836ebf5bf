import Xv6.Sched.Queue
import Xv6.Lib.Run

/-!
# `sleep` and `wakeup`, one step at a time

Processes share a lock `lk`, a condition that is read and changed under `lk`, and
a channel `chan`. Waiters run `while(!cond) sleep(chan, lk)`; whoever makes the
condition true calls `wakeup(chan)` before it releases `lk`. Every store and every
lock operation of `sleep`, `wakeup`, `yield` and `sched` is a step of its own, and
so is every round of the loop of `wakeup1`; any number of CPUs interleave them.
Processes may also sleep on other channels, with or without `lk`, call `wakeup` at
any time, be preempted, be killed and be sent signals.
-/

namespace Xv6.Sleep

open Xv6.Lib
open Function (update update_of_ne update_self)
open Xv6.Sched (Slot Chan Table Build makeRunnable removeProcFromRRqueue)

/-! ## The code -/

/-- Where a process is between two calls: outside the critical section of `lk`, inside it, or inside
with a change of the condition to true that it has not announced. -/
inductive Place where
  | outside
  | inside
  | changed
  deriving DecidableEq, Repr

/-- The place after a call of `wakeup(chan)`. -/
def Place.announced : Place → Place
  | .changed => .inside
  | w => w

/-- Where a process goes on when `sched()` returns. -/
inductive After where
  | forkret
  | yield
  | sleep (lk : Bool)
  deriving DecidableEq, Repr

/-- The next thing a process does. In a call of `sleep`, `lk` says whether its second argument is
`lk` or a lock of another subsystem. -/
inductive Pc where
  | run (w : Place)
  /-- `sleep`: `acquire(&ptable.lock)` -/
  | sleepAcquire (ch : Chan) (lk : Bool)
  /-- `release(lk)` -/
  | sleepRelease (ch : Chan) (lk : Bool)
  /-- `proc->chan = chan` -/
  | sleepChan (ch : Chan) (lk : Bool)
  /-- `proc->state = SLEEPING` -/
  | sleepState (ch : Chan) (lk : Bool)
  /-- `yield`: `acquire(&ptable.lock)` -/
  | yieldAcquire
  /-- `proc->state = RUNNABLE` -/
  | yieldState
  /-- `sched()`: the switch to the scheduler -/
  | sched (k : After)
  /-- switched out -/
  | parked (k : After)
  /-- `sched()` returns, with `ptable.lock` held -/
  | resumed (k : After)
  /-- `sleep`: `release(&ptable.lock)` after `proc->chan = 0` -/
  | sleepDone (lk : Bool)
  /-- `acquire(lk)` -/
  | sleepReacquire (lk : Bool)
  /-- `wakeup`: `acquire(&ptable.lock)` -/
  | wakeupAcquire (ch : Chan) (w : Place)
  /-- `wakeup1`, at slot `i` -/
  | wakeup1 (ch : Chan) (i : Nat) (w : Place)
  /-- `release(&ptable.lock)` -/
  | wakeupRelease (ch : Chan) (w : Place)
  deriving DecidableEq, Repr

/-- The process table, the two locks with the CPUs that hold them, the condition, the process that each
CPU runs (`none` for the scheduler) and where every process is. -/
structure State (ncpu : Nat) where
  tab : Table
  ptable : Option (Fin ncpu)
  lk : Option (Fin ncpu)
  cond : Bool
  cpu : Fin ncpu → Option Slot
  pc : Slot → Pc

variable {ncpu : Nat}

/-- Process `p` goes on at `x`. -/
def State.goto (s : State ncpu) (p : Slot) (x : Pc) : State ncpu := { s with pc := update s.pc p x }

/-- One round of the loop of `Sched.wakeup1`. -/
def wakeSlot (b : Build) (ch : Chan) (t : Table) (p : Slot) : Table :=
  if (t.proc p).state = .sleeping ∧ (t.proc p).chan = ch then makeRunnable b t p else t

/-- The next step of process `p`, on CPU `c`, inside `sleep`, `yield` or `wakeup`. -/
def advance (b : Build) (chan : Chan) (s : State ncpu) (c : Fin ncpu) (p : Slot) : Option (State ncpu) :=
  match s.pc p with
  | .run _ | .parked _ => none
  | .sleepAcquire ch lk =>
    if s.ptable = none then some { s.goto p (.sleepRelease ch lk) with ptable := some c } else none
  | .sleepRelease ch lk => some { s.goto p (.sleepChan ch lk) with lk := if lk then none else s.lk }
  | .sleepChan ch lk =>
    some { s.goto p (.sleepState ch lk) with tab := s.tab.modify p fun r => { r with chan := ch } }
  | .sleepState _ lk =>
    some { s.goto p (.sched (.sleep lk)) with tab := s.tab.modify p fun r => { r with state := .sleeping } }
  | .yieldAcquire => if s.ptable = none then some { s.goto p .yieldState with ptable := some c } else none
  | .yieldState => some { s.goto p (.sched .yield) with tab := makeRunnable b s.tab p }
  | .sched k =>
    -- `ptable.lock` passes to the scheduler of this CPU
    some { s.goto p (.parked k) with cpu := update s.cpu c none }
  | .resumed .forkret | .resumed .yield => some { s.goto p (.run .outside) with ptable := none }
  | .resumed (.sleep lk) =>
    some { s.goto p (.sleepDone lk) with tab := s.tab.modify p fun r => { r with chan := .null } }
  | .sleepDone lk => some { s.goto p (.sleepReacquire lk) with ptable := none }
  | .sleepReacquire false => some (s.goto p (.run .outside))
  | .sleepReacquire true => if s.lk = none then some { s.goto p (.run .inside) with lk := some c } else none
  | .wakeupAcquire ch w => if s.ptable = none then some { s.goto p (.wakeup1 ch 0 w) with ptable := some c } else none
  | .wakeup1 ch i w =>
    if h : i < NPROC then some { s.goto p (.wakeup1 ch (i + 1) w) with tab := wakeSlot b ch s.tab ⟨i, h⟩ }
    else some (s.goto p (.wakeupRelease ch w))
  | .wakeupRelease ch w => some { s.goto p (.run (if ch = chan then w.announced else w)) with ptable := none }

/-- What a CPU does next. -/
inductive Event (ncpu : Nat) where
  /-- the next step inside a call -/
  | advance (c : Fin ncpu)
  /-- `acquire(lk)` -/
  | acquire (c : Fin ncpu)
  /-- `release(lk)` -/
  | release (c : Fin ncpu)
  /-- a store to the condition -/
  | assign (c : Fin ncpu) (v : Bool)
  /-- a call of `sleep` -/
  | sleep (c : Fin ncpu) (ch : Chan) (lk : Bool)
  /-- a call of `wakeup` -/
  | wakeup (c : Fin ncpu) (ch : Chan)
  /-- a timer interrupt makes the process call `yield` -/
  | yield (c : Fin ncpu)
  | kill (c : Fin ncpu) (pid : Int)
  | sigsend (c : Fin ncpu) (pid signum : Int)
  /-- the scheduler acquires `ptable.lock` -/
  | lock (c : Fin ncpu)
  /-- the scheduler switches to a process -/
  | dispatch (c : Fin ncpu) (p : Slot)
  /-- the scheduler releases `ptable.lock` -/
  | unlock (c : Fin ncpu)

/-- The process that CPU `c` runs, if it is between two calls, and its place. -/
def State.current (s : State ncpu) (c : Fin ncpu) : Option (Slot × Place) :=
  match s.cpu c with
  | none => none
  | some p => match s.pc p with
    | .run w => some (p, w)
    | _ => none

/-- The steps. A process sleeps on `chan` with `lk`, when it has found the condition false, and it has
announced every change to true when it releases `lk`. -/
def step (b : Build) (chan : Chan) (s : State ncpu) : Event ncpu → Option (State ncpu)
  | .advance c => do
    let p ← s.cpu c
    advance b chan s c p
  | .acquire c => do
    let (p, w) ← s.current c
    if w = .outside ∧ s.lk = none then some { s.goto p (.run .inside) with lk := some c } else none
  | .release c => do
    let (p, w) ← s.current c
    if w = .inside then some { s.goto p (.run .outside) with lk := none } else none
  | .assign c v => do
    let (p, w) ← s.current c
    if w = .outside then none
    else
      let w := if v = true ∧ s.cond = false then .changed else w
      some { s.goto p (.run w) with cond := v }
  | .sleep c ch lk => do
    let (p, w) ← s.current c
    if w = (if lk then .inside else .outside) ∧ (ch = chan → lk = true ∧ s.cond = false) then
      some (s.goto p (.sleepAcquire ch lk))
    else none
  | .wakeup c ch => do
    let (p, w) ← s.current c
    some (s.goto p (.wakeupAcquire ch w))
  | .yield c => do
    let (p, w) ← s.current c
    if w = .outside then some (s.goto p .yieldAcquire) else none
  | .kill c pid => do
    let _ ← s.current c
    if s.ptable = none then some { s with tab := (Sched.kill b s.tab pid).1 } else none
  | .sigsend c pid signum => do
    let _ ← s.current c
    if s.ptable = none then some { s with tab := (Sched.sigsend s.tab pid signum).1 } else none
  | .lock c => if s.cpu c = none ∧ s.ptable = none then some { s with ptable := some c } else none
  | .dispatch c p =>
    if s.cpu c = none ∧ s.ptable = some c ∧ (s.tab.proc p).state = .runnable then
      match s.pc p with
      | .parked k =>
        let tab := if b.queued then removeProcFromRRqueue s.tab p else s.tab
        some { s.goto p (.resumed k) with
          tab := tab.modify p fun r => { r with state := .running }, cpu := update s.cpu c (some p) }
      | _ => none
    else none
  | .unlock c => if s.cpu c = none ∧ s.ptable = some c then some { s with ptable := none } else none

/-- The states the system starts in: the locks are free, the CPUs are in their schedulers, and every
process is about to run for the first time or does not exist. -/
structure Initial (s : State ncpu) : Prop where
  ptable : s.ptable = none
  lk : s.lk = none
  cpu : ∀ c, s.cpu c = none
  pc : ∀ p, s.pc p = .parked .forkret
  state : ∀ p, (s.tab.proc p).state = .unused ∨ (s.tab.proc p).state = .runnable

/-! ## Who holds the locks -/

/-- The process holds `lk` at this point. -/
def Pc.holdsLk : Pc → Bool
  | .run w | .wakeupAcquire _ w | .wakeup1 _ _ w | .wakeupRelease _ w => decide (w ≠ .outside)
  | .sleepAcquire _ lk | .sleepRelease _ lk => lk
  | _ => false

/-- The process holds `ptable.lock` at this point. -/
def Pc.holdsPtable : Pc → Bool
  | .sleepRelease .. | .sleepChan .. | .sleepState .. | .yieldState | .sched _ | .resumed _ | .sleepDone _
  | .wakeup1 .. | .wakeupRelease .. => true
  | _ => false

/-- The locks belong to the CPUs whose processes are at points that hold them; a process is parked, or on
one CPU. -/
structure Owners (s : State ncpu) : Prop where
  alone : ∀ c c' p, s.cpu c = some p → s.cpu c' = some p → c = c'
  parked : ∀ p, (∃ k, s.pc p = .parked k) ↔ ∀ c, s.cpu c ≠ some p
  lk : ∀ c p, s.cpu c = some p → ((s.pc p).holdsLk = true ↔ s.lk = some c)
  idle : ∀ c, s.lk = some c → s.cpu c ≠ none
  ptable : ∀ c p, s.cpu c = some p → ((s.pc p).holdsPtable = true ↔ s.ptable = some c)

variable {b : Build} {chan ch : Chan} {s s' : State ncpu} {c c' : Fin ncpu} {p q r : Slot} {x y : Pc} {w : Place}

/-- A lock whose holder changes, if at all, from or to CPU `c`. -/
def OnlyBy (c : Fin ncpu) (l l' : Option (Fin ncpu)) : Prop := ∀ c' ≠ c, l' = some c' ↔ l = some c'

theorem OnlyBy.refl (l : Option (Fin ncpu)) : OnlyBy c l l := fun _ _ => Iff.rfl

theorem OnlyBy.take {l : Option (Fin ncpu)} (free : l = none) : OnlyBy c l (some c) := by
  intro c' other
  simp [free, other.symm]

theorem OnlyBy.drop {l : Option (Fin ncpu)} (mine : l = some c) : OnlyBy c l none := by
  intro c' other
  simp [mine, other.symm]

/-- What a step of CPU `c` does to lock `l`, which its process holds before the step if `h` and after it if `h'`. -/
inductive Passes (c : Fin ncpu) (l : Option (Fin ncpu)) : Option (Fin ncpu) → Bool → Bool → Prop where
  | keep {h : Bool} : Passes c l l h h
  | take {h : Bool} (free : l = none) : Passes c l (some c) h true
  | drop : Passes c l none true false

/-- The CPU whose process holds the lock has it, and the others have nothing to do with the step. -/
theorem Passes.spec {l l' : Option (Fin ncpu)} {h h' : Bool} (passes : Passes c l l' h h') (mine : h = true ↔ l = some c) :
    (h' = true ↔ l' = some c) ∧ OnlyBy c l l' := by
  cases passes with
  | keep => exact ⟨mine, .refl l⟩
  | take free => exact ⟨by simp, .take free⟩
  | drop => exact ⟨by simp, .drop (mine.1 rfl)⟩

/-- A step of the process on CPU `c` that stays on it. -/
theorem Owners.move (own : Owners s) (on : s.cpu c = some p) (code : s.pc p = y) (live : ∀ k, x ≠ .parked k)
    {t : Table} {l l' : Option (Fin ncpu)} {v : Bool} (lk : Passes c s.lk l y.holdsLk x.holdsLk)
    (ptable : Passes c s.ptable l' y.holdsPtable x.holdsPtable) :
    Owners { s.goto p x with tab := t, lk := l, ptable := l', cond := v } := by
  subst code
  obtain ⟨lk, lkOther⟩ := lk.spec (own.lk c p on)
  obtain ⟨ptable, ptableOther⟩ := ptable.spec (own.ptable c p on)
  have others {c' : Fin ncpu} {q : Slot} (ne : c' ≠ c) (on' : s.cpu c' = some q) : update s.pc p x q = s.pc q :=
    update_of_ne (fun same : q = p => ne (own.alone c' c p (same ▸ on') on)) _ _
  refine ⟨own.alone, fun q => ?_, fun c' q on' => ?_, fun c' held => ?_, fun c' q on' => ?_⟩
  · show (∃ k, update s.pc p x q = .parked k) ↔ ∀ c, s.cpu c ≠ some q
    rcases eq_or_ne q p with rfl | ne
    · rw [update_self]
      constructor
      · rintro ⟨k, rfl⟩
        exact absurd rfl (live k)
      · intro off
        exact absurd on (off c)
    · rw [update_of_ne ne]
      exact own.parked q
  · show (update s.pc p x q).holdsLk = true ↔ l = some c'
    rcases eq_or_ne c' c with rfl | ne
    · cases on.symm.trans on'
      rwa [update_self]
    · rw [others ne on', lkOther c' ne]
      exact own.lk c' q on'
  · rcases eq_or_ne c' c with rfl | ne
    · exact fun idle => by simp [State.goto, on] at idle
    · exact own.idle c' ((lkOther c' ne).1 held)
  · show (update s.pc p x q).holdsPtable = true ↔ l' = some c'
    rcases eq_or_ne c' c with rfl | ne
    · cases on.symm.trans on'
      rwa [update_self]
    · rw [others ne on', ptableOther c' ne]
      exact own.ptable c' q on'

/-- A process that is not parked is on a CPU. -/
theorem Owners.onCpu (own : Owners s) (live : ∀ k, s.pc p ≠ .parked k) : ∃ c, s.cpu c = some p := by
  by_contra off
  push Not at off
  obtain ⟨k, parked⟩ := (own.parked p).2 off
  exact live k parked

/-- Two processes do not both hold `lk`. -/
theorem Owners.lk_unique (own : Owners s) (held : (s.pc p).holdsLk = true) (held' : (s.pc q).holdsLk = true) : p = q := by
  obtain ⟨c, on⟩ := own.onCpu (p := p) fun k parked => by simp [parked, Pc.holdsLk] at held
  obtain ⟨c', on'⟩ := own.onCpu (p := q) fun k parked => by simp [parked, Pc.holdsLk] at held'
  cases ((own.lk c p on).1 held).symm.trans ((own.lk c' q on').1 held')
  exact Option.some.inj (on.symm.trans on')

/-- Two processes do not both hold `ptable.lock`. -/
theorem Owners.ptable_unique (own : Owners s) (held : (s.pc p).holdsPtable = true)
    (held' : (s.pc q).holdsPtable = true) : p = q := by
  obtain ⟨c, on⟩ := own.onCpu (p := p) fun k parked => by simp [parked, Pc.holdsPtable] at held
  obtain ⟨c', on'⟩ := own.onCpu (p := q) fun k parked => by simp [parked, Pc.holdsPtable] at held'
  cases ((own.ptable c p on).1 held).symm.trans ((own.ptable c' q on').1 held')
  exact Option.some.inj (on.symm.trans on')

/-! ## Who is owed a wakeup -/

/-- At this point a change of the condition to true has not been announced to slot `r`. -/
def Pc.Owes (chan : Chan) (r : Slot) : Pc → Prop
  | .run w | .wakeupAcquire _ w => w = .changed
  | .wakeup1 ch i w => w = .changed ∧ (ch = chan → i ≤ r)
  | .wakeupRelease ch w => w = .changed ∧ ch ≠ chan
  | _ => False

/-- Process `r` sleeps on `chan`, or has released `lk` in order to. -/
def Waiting (chan : Chan) (s : State ncpu) (r : Slot) : Prop :=
  ((s.tab.proc r).state = .sleeping ∧ (s.tab.proc r).chan = chan) ∨
    ∃ lk, s.pc r = .sleepChan chan lk ∨ s.pc r = .sleepState chan lk

/-- In a call of `sleep` on `chan` that has not released `lk` yet. -/
def Pc.Early (chan : Chan) (lk : Bool) (x : Pc) : Prop := x = .sleepAcquire chan lk ∨ x = .sleepRelease chan lk

/-- Whoever waits while the condition holds will be woken by a process that holds `lk`. -/
structure Told (chan : Chan) (s : State ncpu) : Prop where
  early : ∀ p lk, (s.pc p).Early chan lk → lk = true ∧ s.cond = false
  owed : ∀ r, Waiting chan s r → s.cond = true → ∃ q, (s.pc q).Owes chan r
  stored : ∀ p ch lk, s.pc p = .sleepState ch lk → (s.tab.proc p).chan = ch
  awake : ∀ p k, s.pc p = .resumed k → (s.tab.proc p).state ≠ .sleeping

theorem Pc.Owes.holdsLk (owes : x.Owes chan r) : x.holdsLk = true := by
  cases x <;> simp_all [Pc.Owes, Pc.holdsLk]

/-- Slot `r` keeps its channel and does not fall asleep. -/
structure Roused (t t' : Table) (r : Slot) : Prop where
  chan : (t'.proc r).chan = (t.proc r).chan
  state : (t'.proc r).state = .sleeping → (t.proc r).state = .sleeping

/-- A step of process `p` that leaves the condition alone and, for those who still wait, what is owed. -/
theorem Told.move (told : Told chan s) (code : s.pc p = y) (pc : s'.pc = update s.pc p x) (cond : s'.cond = s.cond)
    (tab : ∀ r ≠ p, Roused s.tab s'.tab r) (early : ∀ lk, x.Early chan lk → lk = true ∧ s.cond = false)
    (waits : Waiting chan s' p → s.cond = true → Waiting chan s p)
    (owes : ∀ r, Waiting chan s' r → y.Owes chan r → x.Owes chan r)
    (stored : ∀ ch lk, x = .sleepState ch lk → (s'.tab.proc p).chan = ch)
    (awake : ∀ k, x = .resumed k → (s'.tab.proc p).state ≠ .sleeping) : Told chan s' := by
  have others : ∀ q ≠ p, s'.pc q = s.pc q := fun q ne => by rw [pc, update_of_ne ne]
  have self : s'.pc p = x := by rw [pc, update_self]
  refine ⟨?_, ?_, ?_, ?_⟩
  · intro q lk found
    rw [cond]
    rcases eq_or_ne q p with rfl | ne
    · exact early lk (self ▸ found)
    · exact told.early q lk (others q ne ▸ found)
  · intro r waiting holds
    rw [cond] at holds
    have before : Waiting chan s r := by
      rcases eq_or_ne r p with rfl | ne
      · exact waits waiting holds
      · rcases waiting with ⟨asleep, on⟩ | inCall
        · exact .inl ⟨(tab r ne).state asleep, (tab r ne).chan ▸ on⟩
        · exact .inr (others r ne ▸ inCall)
    obtain ⟨q, debt⟩ := told.owed r before holds
    refine ⟨q, ?_⟩
    rcases eq_or_ne q p with rfl | ne
    · exact self ▸ owes r waiting (code ▸ debt)
    · exact others q ne ▸ debt
  · intro q ch lk found
    rcases eq_or_ne q p with rfl | ne
    · exact stored ch lk (self ▸ found)
    · rw [(tab q ne).chan]
      exact told.stored q ch lk (others q ne ▸ found)
  · intro q k found asleep
    rcases eq_or_ne q p with rfl | ne
    · exact awake k (self ▸ found) asleep
    · exact told.awake q k (others q ne ▸ found) ((tab q ne).state asleep)

/-- The points at which `Told` says something about the process itself. -/
def Pc.Special (chan : Chan) : Pc → Prop
  | .sleepAcquire ch _ | .sleepRelease ch _ => ch = chan
  | .sleepChan .. | .sleepState .. | .resumed _ => True
  | _ => False

/-- A step to a point of no special meaning. -/
theorem Told.plain (told : Told chan s) (code : s.pc p = y) (pc : s'.pc = update s.pc p x) (cond : s'.cond = s.cond)
    (tab : ∀ r, Roused s.tab s'.tab r) (ordinary : ¬ x.Special chan)
    (owes : ∀ r, Waiting chan s' r → y.Owes chan r → x.Owes chan r) : Told chan s' := by
  refine told.move code pc cond (fun r _ => tab r) ?_ ?_ owes ?_ ?_
  · rintro lk (rfl | rfl) <;> exact absurd rfl ordinary
  · rintro (⟨asleep, on⟩ | ⟨lk, inCall⟩) _
    · exact .inl ⟨(tab p).state asleep, (tab p).chan ▸ on⟩
    · rw [pc, update_self] at inCall
      rcases inCall with rfl | rfl <;> exact absurd trivial ordinary
  · rintro ch lk rfl
    exact absurd trivial ordinary
  · rintro k rfl
    exact absurd trivial ordinary

theorem Roused.refl (t : Table) (r : Slot) : Roused t t r := ⟨rfl, id⟩

theorem Roused.trans {t t' t'' : Table} (first : Roused t t' r) (second : Roused t' t'' r) : Roused t t'' r :=
  ⟨second.chan.trans first.chan, first.state ∘ second.state⟩

theorem Roused.of_eq {t t' : Table} (same : t'.proc r = t.proc r) : Roused t t' r := ⟨by rw [same], by rw [same]; exact id⟩

theorem roused_of_awakens {t t' : Table} (awakens : Sched.Awakens t t') (r : Slot) : Roused t t' r :=
  ⟨awakens.chan r, awakens.asleep⟩

theorem Roused.makeRunnable (t : Table) (r : Slot) : Roused t (makeRunnable b t p) r := by
  refine ⟨(Sched.Awakens.makeRunnable_fields b t p r).2.2, ?_⟩
  rw [Sched.makeRunnable_state]
  split_ifs
  · rintro ⟨⟩
  · exact id

theorem Roused.wakeSlot (t : Table) (r : Slot) : Roused t (wakeSlot b ch t p) r := by
  unfold Sleep.wakeSlot
  split_ifs
  · exact .makeRunnable t r
  · exact .refl t r

/-- After its round a slot does not sleep on the channel. -/
theorem wakeSlot_awake {t : Table} :
    ¬ (((wakeSlot b ch t p).proc p).state = .sleeping ∧ ((wakeSlot b ch t p).proc p).chan = ch) := by
  unfold wakeSlot
  split_ifs with asleep
  · rw [Sched.makeRunnable_state, if_pos rfl]
    simp
  · exact asleep

/-! ## Every step -/

/-- The invariant. -/
structure Inv (chan : Chan) (s : State ncpu) : Prop where
  owners : Owners s
  told : Told chan s

theorem Initial.inv (init : Initial s) : Inv chan s where
  owners := by
    refine ⟨?_, ?_, ?_, ?_, ?_⟩
    · intro c c' p on
      simp [init.cpu c] at on
    · intro p
      simp [init.pc p, init.cpu]
    · intro c p on
      simp [init.cpu c] at on
    · intro c held
      simp [init.lk] at held
    · intro c p on
      simp [init.cpu c] at on
  told := by
    refine ⟨?_, ?_, ?_, ?_⟩
    · intro p lk early
      simp [Pc.Early, init.pc p] at early
    · rintro r (⟨asleep, _⟩ | ⟨lk, inCall⟩)
      · rcases init.state r with st | st <;> simp [st] at asleep
      · simp [init.pc r] at inCall
    · intro p ch lk found
      simp [init.pc p] at found
    · intro p k found
      simp [init.pc p] at found

/-- A step of the process on CPU `c` to a point of no special meaning. -/
theorem Inv.plain (inv : Inv chan s) (on : s.cpu c = some p) (code : s.pc p = y) (live : ∀ k, x ≠ .parked k)
    (ordinary : ¬ x.Special chan) {t : Table} {l l' : Option (Fin ncpu)} (lk : Passes c s.lk l y.holdsLk x.holdsLk)
    (ptable : Passes c s.ptable l' y.holdsPtable x.holdsPtable) (tab : ∀ r, Roused s.tab t r)
    (owes : ∀ r, Waiting chan { s.goto p x with tab := t, lk := l, ptable := l' } r → y.Owes chan r → x.Owes chan r) :
    Inv chan { s.goto p x with tab := t, lk := l, ptable := l' } :=
  ⟨inv.owners.move on code live lk ptable, inv.told.plain code rfl rfl tab ordinary owes⟩

/-- `sched()`: the process leaves its CPU, and the scheduler goes on with `ptable.lock`. -/
theorem Owners.park (own : Owners s) (on : s.cpu c = some p) {k k' : After} (code : s.pc p = .sched k)
    (cpu : s'.cpu = update s.cpu c none) (pc : s'.pc = update s.pc p (.parked k')) (lk : s'.lk = s.lk)
    (ptable : s'.ptable = s.ptable) : Owners s' := by
  have elsewhere : ∀ {c' q}, s'.cpu c' = some q → c' ≠ c ∧ s.cpu c' = some q ∧ q ≠ p := by
    intro c' q on'
    have ne : c' ≠ c := by
      rintro rfl
      simp [cpu] at on'
    rw [cpu, update_of_ne ne] at on'
    refine ⟨ne, on', ?_⟩
    rintro rfl
    exact ne (own.alone _ _ _ on' on)
  refine ⟨?_, ?_, ?_, ?_, ?_⟩
  · intro c1 c2 q first second
    exact own.alone c1 c2 q (elsewhere first).2.1 (elsewhere second).2.1
  · intro q
    rw [pc]
    rcases eq_or_ne q p with rfl | ne
    · rw [update_self]
      exact ⟨fun _ c' on' => (elsewhere on').2.2 rfl, fun _ => ⟨k', rfl⟩⟩
    · rw [update_of_ne ne, own.parked q]
      constructor
      · intro off c' on'
        exact off c' (elsewhere on').2.1
      · intro off c' on'
        have other : c' ≠ c := by
          rintro rfl
          exact ne (Option.some.inj (on'.symm.trans on))
        refine off c' ?_
        rwa [cpu, update_of_ne other]
  · intro c' q on'
    obtain ⟨_, before, ne⟩ := elsewhere on'
    rw [pc, update_of_ne ne, lk]
    exact own.lk c' q before
  · intro c' held
    have ne : c' ≠ c := by
      rintro rfl
      rw [lk, ← own.lk c' p on, code] at held
      cases held
    rw [cpu, update_of_ne ne]
    exact own.idle c' (lk ▸ held)
  · intro c' q on'
    obtain ⟨_, before, ne⟩ := elsewhere on'
    rw [pc, update_of_ne ne, ptable]
    exact own.ptable c' q before

/-- The scheduler's switch to a process. -/
theorem Owners.dispatch (own : Owners s) (idle : s.cpu c = none) (held : s.ptable = some c) {k : After}
    (code : s.pc p = .parked k) (cpu : s'.cpu = update s.cpu c (some p))
    (pc : s'.pc = update s.pc p (.resumed k)) (lk : s'.lk = s.lk) (ptable : s'.ptable = s.ptable) : Owners s' := by
  have off := (own.parked p).1 ⟨k, code⟩
  have same : ∀ {c' q}, c' ≠ c → s'.cpu c' = some q → s.cpu c' = some q ∧ q ≠ p := by
    intro c' q ne on'
    rw [cpu, update_of_ne ne] at on'
    refine ⟨on', ?_⟩
    rintro rfl
    exact off c' on'
  have mine : ∀ {q}, s'.cpu c = some q → q = p := by
    intro q on'
    rw [cpu, update_self] at on'
    exact (Option.some.inj on').symm
  have free : s.lk ≠ some c := fun taken => own.idle c taken idle
  refine ⟨?_, ?_, ?_, ?_, ?_⟩
  · intro c1 c2 q first second
    rcases eq_or_ne c1 c with eq1 | ne1 <;> rcases eq_or_ne c2 c with eq2 | ne2
    · exact eq1.trans eq2.symm
    · exact absurd (mine (eq1 ▸ first)) (same ne2 second).2
    · exact absurd (mine (eq2 ▸ second)) (same ne1 first).2
    · exact own.alone c1 c2 q (same ne1 first).1 (same ne2 second).1
  · intro q
    rw [pc]
    rcases eq_or_ne q p with rfl | ne
    · rw [update_self]
      constructor
      · rintro ⟨_, parked⟩
        cases parked
      · intro off'
        exact absurd (by rw [cpu, update_self]) (off' _)
    · rw [update_of_ne ne, own.parked q]
      constructor
      · intro off' c' on'
        rcases eq_or_ne c' c with rfl | other
        · exact ne (mine on')
        · exact off' c' (same other on').1
      · intro off' c' on'
        have other : c' ≠ c := by
          rintro rfl
          simp [idle] at on'
        refine off' c' ?_
        rwa [cpu, update_of_ne other]
  · intro c' q on'
    rw [lk, pc]
    rcases eq_or_ne c' c with rfl | other
    · rw [mine on', update_self]
      simp [Pc.holdsLk, free]
    · obtain ⟨before, ne⟩ := same other on'
      rw [update_of_ne ne]
      exact own.lk c' q before
  · intro c' taken
    rw [lk] at taken
    have other : c' ≠ c := by
      rintro rfl
      exact free taken
    rw [cpu, update_of_ne other]
    exact own.idle c' taken
  · intro c' q on'
    rw [ptable, pc]
    rcases eq_or_ne c' c with rfl | other
    · rw [mine on', update_self]
      simp [Pc.holdsPtable, held]
    · obtain ⟨before, ne⟩ := same other on'
      rw [update_of_ne ne]
      exact own.ptable c' q before

/-- A step inside `sleep`, `yield` or `wakeup` keeps the invariant. -/
theorem advance_inv (inv : Inv chan s) (on : s.cpu c = some p) (taken : advance b chan s c p = some s') : Inv chan s' := by
  have own := inv.owners
  have told := inv.told
  have still : ∀ r, Roused s.tab s.tab r := .refl s.tab
  cases code : s.pc p
  all_goals simp only [advance, code, Option.ite_none_right_eq_some, Option.some.injEq, reduceCtorEq] at taken
  case sleepAcquire ch lk =>
    obtain ⟨free, rfl⟩ := taken
    refine ⟨own.move on code (by simp) .keep (.take free), ?_⟩
    refine told.move code rfl rfl (fun r _ => still r) ?_ ?_ (fun _ _ => False.elim) (by simp) (by simp)
    · rintro lk' (early | early)
      · cases early
      · cases early
        exact told.early p lk (.inl code)
    · rintro (asleep | ⟨_, inCall⟩) _
      · exact .inl asleep
      · simp [State.goto] at inCall
  case sleepRelease ch lk =>
    obtain rfl := taken
    constructor
    · cases lk with
      | false => exact own.move on code (by simp) .keep .keep
      | true => exact own.move on code (by simp) .drop .keep
    · refine told.move code rfl rfl (fun r _ => still r) (by simp [Pc.Early]) ?_ (fun _ _ => False.elim) (by simp) (by simp)
      rintro (asleep | ⟨lk', inCall⟩) holds
      · exact .inl asleep
      · simp only [State.goto, update_self, Pc.sleepChan.injEq, reduceCtorEq, or_false] at inCall
        -- the condition is false as long as the caller holds `lk`
        rw [inCall.1] at code
        rw [(told.early p lk (.inr code)).2] at holds
        cases holds
  case sleepChan ch lk =>
    obtain rfl := taken
    refine ⟨own.move on code (by simp) .keep .keep, ?_⟩
    refine told.move code rfl rfl ?_ (by simp [Pc.Early]) ?_ (fun _ _ => False.elim) ?_ (by simp)
    · exact fun r ne => .of_eq (by simp [Sched.modify_proc_ne, ne])
    · rintro (⟨_, on'⟩ | ⟨lk', inCall⟩) _
      · have same : ch = chan := by simpa using on'
        exact .inr ⟨lk, .inl (same ▸ code)⟩
      · simp only [State.goto, update_self, Pc.sleepState.injEq, reduceCtorEq, false_or] at inCall
        exact .inr ⟨lk, .inl (inCall.1 ▸ code)⟩
    · intro ch' lk' same
      cases same
      simp
  case sleepState ch lk =>
    obtain rfl := taken
    refine ⟨own.move on code (by simp) .keep .keep, ?_⟩
    refine told.move code rfl rfl ?_ (by simp [Pc.Early]) ?_ (fun _ _ => False.elim) (by simp) (by simp)
    · exact fun r ne => .of_eq (by simp [Sched.modify_proc_ne, ne])
    · rintro (⟨_, on'⟩ | ⟨lk', inCall⟩) _
      · have same : ch = chan := (told.stored p ch lk code).symm.trans (by simpa using on')
        exact .inr ⟨lk, .inr (same ▸ code)⟩
      · simp [State.goto] at inCall
  case yieldAcquire =>
    obtain ⟨free, rfl⟩ := taken
    exact inv.plain on code (by simp) id .keep (.take free) still fun _ _ => False.elim
  case yieldState =>
    obtain rfl := taken
    exact inv.plain on code (by simp) id .keep .keep (.makeRunnable s.tab) fun _ _ => False.elim
  case sched k =>
    obtain rfl := taken
    exact ⟨own.park on code rfl rfl rfl rfl, told.plain code rfl rfl still id fun _ _ => False.elim⟩
  case resumed k =>
    cases k with
    | forkret | yield =>
      cases taken
      exact inv.plain on code (by simp) id .keep .drop still fun _ _ => False.elim
    | sleep lk =>
      cases taken
      refine ⟨own.move on code (by simp) .keep .keep, ?_⟩
      refine told.move code rfl rfl ?_ (by simp [Pc.Early]) ?_ (fun _ _ => False.elim) (by simp) (by simp)
      · exact fun r ne => .of_eq (by simp [Sched.modify_proc_ne, ne])
      · rintro (⟨asleep, _⟩ | ⟨lk', inCall⟩) _
        · exact absurd (by simpa using asleep) (told.awake p _ code)
        · simp [State.goto] at inCall
  case sleepDone lk =>
    obtain rfl := taken
    exact inv.plain on code (by simp) id .keep .drop still fun _ _ => False.elim
  case sleepReacquire lk =>
    cases lk with
    | false =>
      cases taken
      exact inv.plain on code (by simp) id .keep .keep still fun _ _ => False.elim
    | true =>
      simp only [Option.ite_none_right_eq_some, Option.some.injEq] at taken
      obtain ⟨free, rfl⟩ := taken
      exact inv.plain on code (by simp) id (.take free) .keep still fun _ _ => False.elim
  case wakeupAcquire ch w =>
    obtain ⟨free, rfl⟩ := taken
    exact inv.plain on code (by simp) id .keep (.take free) still fun r _ owes => ⟨owes, fun _ => Nat.zero_le _⟩
  case wakeup1 ch i w =>
    split at taken
    · rename_i inside
      cases taken
      refine inv.plain on code (by simp) id .keep .keep (.wakeSlot s.tab) fun r waiting owes => ⟨owes.1, fun same => ?_⟩
      have ne : r ≠ ⟨i, inside⟩ := by
        rintro rfl
        rcases waiting with ⟨asleep, on'⟩ | ⟨lk, inCall⟩
        · rw [← same] at on'
          exact wakeSlot_awake ⟨asleep, on'⟩
        · -- a process that is about to sleep holds `ptable.lock`, as the scan does
          have other : (⟨i, inside⟩ : Slot) ≠ p := by
            intro here
            rw [here] at inCall
            simp [State.goto] at inCall
          simp only [State.goto, update_of_ne other] at inCall
          exact other (own.ptable_unique (by rcases inCall with h | h <;> rw [h] <;> rfl) (by rw [code]; rfl))
      have le := owes.2 same
      have : r.val ≠ i := fun eq => ne (Fin.ext eq)
      omega
    · rename_i past
      cases taken
      refine inv.plain on code (by simp) id .keep .keep still fun r _ owes => ⟨owes.1, fun same => past ?_⟩
      exact Nat.lt_of_le_of_lt (owes.2 same) r.isLt
  case wakeupRelease ch w =>
    obtain rfl := taken
    have same : (Pc.run (if ch = chan then w.announced else w)).holdsLk = (Pc.wakeupRelease ch w).holdsLk := by
      split_ifs <;> cases w <;> rfl
    refine inv.plain on code (by simp) id (same ▸ .keep) .drop still fun r _ owes => ?_
    simpa [Pc.Owes, owes.2] using owes.1

/-- The process between two calls. -/
theorem current_eq (current : s.current c = some (p, w)) : s.cpu c = some p ∧ s.pc p = .run w := by
  unfold State.current at current
  split at current
  · cases current
  · rename_i q on
    split at current
    · rename_i w' code
      cases current
      exact ⟨on, code⟩
    · cases current

/-- A store to the condition. -/
theorem Told.assign (told : Told chan s) (own : Owners s) (code : s.pc p = .run w) (held : w ≠ .outside) {v : Bool}
    (pc : s'.pc = update s.pc p (.run (if v = true ∧ s.cond = false then .changed else w)))
    (cond : s'.cond = v) (tab : s'.tab = s.tab) : Told chan s' := by
  have others : ∀ q ≠ p, s'.pc q = s.pc q := fun q ne => by rw [pc, update_of_ne ne]
  have self := congrFun pc p
  rw [update_self] at self
  have mine : (s.pc p).holdsLk = true := by simp [code, Pc.holdsLk, held]
  refine ⟨?_, ?_, ?_, ?_⟩
  · intro q lk early
    rcases eq_or_ne q p with rfl | ne
    · simp [self, Pc.Early] at early
    · -- the caller of `sleep` holds `lk`, so nobody else stores to the condition
      rw [others q ne] at early
      have owner := (told.early q lk early).1
      have : (s.pc q).holdsLk = true := by rcases early with h | h <;> rw [h, owner] <;> rfl
      exact absurd (own.lk_unique this mine) ne
  · intro r waiting holds
    rw [cond] at holds
    cases before : s.cond with
    | false =>
      refine ⟨p, ?_⟩
      rw [self, if_pos ⟨holds, before⟩]
      rfl
    | true =>
      have waiting' : Waiting chan s r := by
        rcases waiting with asleep | ⟨lk, inCall⟩
        · exact .inl (tab ▸ asleep)
        · have ne : r ≠ p := by
            rintro rfl
            simp [self] at inCall
          exact .inr ⟨lk, others r ne ▸ inCall⟩
      obtain ⟨q, owes⟩ := told.owed r waiting' before
      refine ⟨q, ?_⟩
      rcases eq_or_ne q p with rfl | ne
      · rw [self, if_neg (by simp [before]), ← code]
        exact owes
      · exact others q ne ▸ owes
  · intro q ch lk found
    have ne : q ≠ p := by
      rintro rfl
      simp [self] at found
    rw [tab]
    exact told.stored q ch lk (others q ne ▸ found)
  · intro q k found
    have ne : q ≠ p := by
      rintro rfl
      simp [self] at found
    rw [tab]
    exact told.awake q k (others q ne ▸ found)

/-- Somebody else wakes a sleeper. -/
theorem Inv.rouse (inv : Inv chan s) {t : Table} (roused : ∀ r, Roused s.tab t r) : Inv chan { s with tab := t } where
  owners := ⟨inv.owners.alone, inv.owners.parked, inv.owners.lk, inv.owners.idle, inv.owners.ptable⟩
  told := by
    refine ⟨inv.told.early, ?_, ?_, ?_⟩
    · rintro r (⟨asleep, on⟩ | inCall) holds
      · exact inv.told.owed r (.inl ⟨(roused r).state asleep, (roused r).chan ▸ on⟩) holds
      · exact inv.told.owed r (.inr inCall) holds
    · intro p ch lk found
      exact (roused p).chan.trans (inv.told.stored p ch lk found)
    · intro p k found asleep
      exact inv.told.awake p k found ((roused p).state asleep)

/-- The scheduler takes or releases `ptable.lock`. -/
theorem Inv.relock (inv : Inv chan s) (idle : s.cpu c = none) {l : Option (Fin ncpu)} (only : OnlyBy c s.ptable l) :
    Inv chan { s with ptable := l } where
  owners := by
    refine ⟨inv.owners.alone, inv.owners.parked, inv.owners.lk, inv.owners.idle, ?_⟩
    intro c' p on
    have ne : c' ≠ c := by
      rintro rfl
      cases idle.symm.trans on
    exact (inv.owners.ptable c' p on).trans (only c' ne).symm
  told := ⟨inv.told.early, inv.told.owed, inv.told.stored, inv.told.awake⟩

theorem current_bind {f : Slot × Place → Option (State ncpu)} (taken : (s.current c).bind f = some s') :
    ∃ p w, s.cpu c = some p ∧ s.pc p = .run w ∧ f (p, w) = some s' := by
  obtain ⟨⟨p, w⟩, current, taken⟩ := Option.bind_eq_some_iff.1 taken
  obtain ⟨on, code⟩ := current_eq current
  exact ⟨p, w, on, code, taken⟩

/-- **Every step keeps the invariant.** -/
theorem step_inv {e : Event ncpu} (inv : Inv chan s) (taken : step b chan s e = some s') : Inv chan s' := by
  have own := inv.owners
  have told := inv.told
  have still : ∀ r, Roused s.tab s.tab r := .refl s.tab
  cases e with
  | advance c =>
    obtain ⟨p, on, taken⟩ := Option.bind_eq_some_iff.1 taken
    exact advance_inv inv on taken
  | acquire c =>
    obtain ⟨p, w, on, code, taken⟩ := current_bind taken
    simp only [Option.ite_none_right_eq_some, Option.some.injEq] at taken
    obtain ⟨⟨rfl, free⟩, rfl⟩ := taken
    exact inv.plain on code (by simp) id (.take free) .keep still fun _ _ owes => by cases owes
  | release c =>
    obtain ⟨p, w, on, code, taken⟩ := current_bind taken
    simp only [Option.ite_none_right_eq_some, Option.some.injEq] at taken
    obtain ⟨rfl, rfl⟩ := taken
    exact inv.plain on code (by simp) id .drop .keep still fun _ _ owes => by cases owes
  | assign c v =>
    obtain ⟨p, w, on, code, taken⟩ := current_bind taken
    simp only [Option.ite_none_left_eq_some, Option.some.injEq] at taken
    obtain ⟨held, rfl⟩ := taken
    have same : (Pc.run (if v = true ∧ s.cond = false then .changed else w)).holdsLk = (Pc.run w).holdsLk := by
      simp only [Pc.holdsLk]
      split_ifs
      · simp [held]
      · rfl
    exact ⟨own.move on code (by simp) (same ▸ .keep) .keep, told.assign own code held rfl rfl rfl⟩
  | sleep c ch lk =>
    obtain ⟨p, w, on, code, taken⟩ := current_bind taken
    simp only [Option.ite_none_right_eq_some, Option.some.injEq] at taken
    obtain ⟨⟨rfl, mine⟩, rfl⟩ := taken
    have same : (Pc.sleepAcquire ch lk).holdsLk = (Pc.run (if lk then .inside else .outside)).holdsLk := by cases lk <;> rfl
    refine ⟨own.move on code (by simp) (same ▸ .keep) .keep, ?_⟩
    refine told.move code rfl rfl (fun r _ => still r) ?_ ?_ ?_ (by simp) (by simp)
    · rintro lk' (early | early)
      · cases early
        exact mine rfl
      · cases early
    · rintro (asleep | ⟨_, inCall⟩) _
      · exact .inl asleep
      · simp [State.goto] at inCall
    · intro r _ owes
      cases lk <;> cases owes
  | wakeup c ch =>
    obtain ⟨p, w, on, code, taken⟩ := current_bind taken
    cases taken
    exact inv.plain on code (by simp) id .keep .keep still fun _ _ owes => owes
  | yield c =>
    obtain ⟨p, w, on, code, taken⟩ := current_bind taken
    simp only [Option.ite_none_right_eq_some, Option.some.injEq] at taken
    obtain ⟨rfl, rfl⟩ := taken
    exact inv.plain on code (by simp) id .keep .keep still fun _ _ owes => by cases owes
  | kill c pid =>
    obtain ⟨_, _, taken⟩ := Option.bind_eq_some_iff.1 taken
    simp only [Option.ite_none_right_eq_some, Option.some.injEq] at taken
    obtain ⟨_, rfl⟩ := taken
    exact inv.rouse (roused_of_awakens (.kill s.tab pid))
  | sigsend c pid signum =>
    obtain ⟨_, _, taken⟩ := Option.bind_eq_some_iff.1 taken
    simp only [Option.ite_none_right_eq_some, Option.some.injEq] at taken
    obtain ⟨_, rfl⟩ := taken
    exact inv.rouse (roused_of_awakens (.sigsend s.tab pid signum))
  | lock c =>
    simp only [step, Option.ite_none_right_eq_some, Option.some.injEq] at taken
    obtain ⟨⟨idle, free⟩, rfl⟩ := taken
    exact inv.relock idle (.take free)
  | dispatch c p =>
    simp only [step, Option.ite_none_right_eq_some] at taken
    obtain ⟨⟨idle, held, _⟩, taken⟩ := taken
    split at taken
    · rename_i k code
      cases taken
      refine ⟨own.dispatch idle held code rfl rfl rfl rfl, ?_⟩
      refine told.move code rfl rfl ?_ (by simp [Pc.Early]) ?_ (fun _ _ => False.elim) (by simp) (by simp)
      · intro r ne
        have removed : Roused s.tab (if b.queued then removeProcFromRRqueue s.tab p else s.tab) r := by
          split_ifs
          · exact roused_of_awakens (.remove s.tab p) r
          · exact still r
        exact removed.trans (.of_eq (by simp [Sched.modify_proc_ne, ne]))
      · rintro (⟨asleep, _⟩ | ⟨_, inCall⟩) _
        · simp at asleep
        · simp [State.goto] at inCall
    · cases taken
  | unlock c =>
    simp only [step, Option.ite_none_right_eq_some, Option.some.injEq] at taken
    obtain ⟨⟨idle, held⟩, rfl⟩ := taken
    exact inv.relock idle (.drop held)

/-- **No wakeup is lost.** In every state of every run in which `lk` is free, whether `ptable.lock` is free or
not, nobody sleeps on `chan` while the condition holds. -/
theorem no_lost_wakeup {start : State ncpu} {tr : List (State ncpu × Event ncpu)} (init : Initial start)
    (run : Run (step b chan) start tr s) (free : s.lk = none) (holds : s.cond = true) (p : Slot) :
    ¬ ((s.tab.proc p).state = .sleeping ∧ (s.tab.proc p).chan = chan) := by
  intro asleep
  obtain ⟨own, told⟩ := run.invariant_all (Inv chan) init.inv fun _ _ _ => step_inv
  obtain ⟨q, owes⟩ := told.owed p (.inl asleep) holds
  have held := owes.holdsLk
  -- the process that owes the wakeup is on a CPU, which holds `lk`
  obtain ⟨c, on⟩ := own.onCpu (p := q) fun k parked => by simp [parked, Pc.holdsLk] at held
  rw [own.lk c q on, free] at held
  cases held

/-- Two processes about to run, a false condition and nobody asleep. -/
def twoProcesses : State 2 where
  tab := ⟨fun p => if p.val < 2 then { state := .runnable } else {}, none, none⟩
  ptable := none
  lk := none
  cond := false
  cpu := fun _ => none
  pc := fun _ => .parked .forkret

/-- The first process goes to sleep, the second makes the condition true and wakes it. -/
def waitAndWake : List (Event 2) :=
  let dispatched : List (Event 2) := [.lock 0, .dispatch 0 0, .advance 0, .lock 1, .dispatch 1 1, .advance 1]
  let asleep : List (Event 2) := [.acquire 0, .sleep 0 (.addr 7) true, .advance 0, .advance 0, .advance 0, .advance 0,
    .advance 0, .unlock 0]
  let change : List (Event 2) := [.acquire 1, .assign 1 true, .wakeup 1 (.addr 7)]
  let scan : List (Event 2) := List.replicate (NPROC + 3) (.advance 1)
  [dispatched, asleep, change, scan, [.release 1]].flatten

/-- At the end both locks are free, the condition holds, and the sleeper is awake. -/
theorem no_lost_wakeup_twoProcesses : ∃ tr s, Run (step .default (.addr 7)) twoProcesses tr s ∧ s.lk = none ∧
    s.ptable = none ∧ s.cond = true ∧ (s.tab.proc 0).chan = .addr 7 ∧ (s.tab.proc 0).state ≠ .sleeping := by
  have final : (exec (step .default (.addr 7)) twoProcesses waitAndWake).map
      (fun s => (s.lk, s.ptable, s.cond, (s.tab.proc 0).chan)) = some (none, none, true, .addr 7) := by decide +kernel
  obtain ⟨s, done, seen⟩ := Option.map_eq_some_iff.1 final
  obtain ⟨free, released, holds, on⟩ : s.lk = none ∧ s.ptable = none ∧ s.cond = true ∧ (s.tab.proc 0).chan = .addr 7 := by
    simpa using seen
  have init : Initial twoProcesses := by
    refine ⟨rfl, rfl, fun _ => rfl, fun _ => rfl, ?_⟩
    intro p
    unfold twoProcesses
    dsimp only
    split_ifs
    · exact .inr rfl
    · exact .inl rfl
  refine ⟨_, s, run_of_exec done, free, released, holds, on, ?_⟩
  intro asleep
  exact no_lost_wakeup init (run_of_exec done) free holds 0 ⟨asleep, on⟩

end Xv6.Sleep
