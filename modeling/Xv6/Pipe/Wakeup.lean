import Xv6.Pipe

/-!
# Sleepers on a pipe

A reader should sleep on `&p->nread` only while the pipe is empty and its write end
open, a writer on `&p->nwrite` only while the pipe is full and its read end open.
Between an update and its `wakeup` the process that holds the lock owes the sleepers
one; `pipewrite` returns -1 from a full pipe without paying, and a reader that went to
sleep before the first byte was stored sleeps on.
-/

namespace Xv6.Pipe

open Xv6.Lib

/-- SLEEPING on `&p->nread`. -/
def Pc.onNread : Pc → Bool
  | .readAsleep _ => true
  | _ => false

/-- SLEEPING on `&p->nwrite`. -/
def Pc.onNwrite : Pc → Bool
  | .writeAsleep .. => true
  | _ => false

/-- About to release the lock and return -1 from `pipewrite`. -/
def Pc.givesUp : Pc → Bool
  | .writeReturn r => r = -1
  | _ => false

/-- Bytes may have been stored since the last `wakeup(&p->nread)`. -/
def Pc.owesReaders : Pc → Bool
  | .writeLoop .. | .writeFull .. | .writeWakeup _ => true
  | x => x.givesUp

/-- Bytes may have been taken since the last `wakeup(&p->nwrite)`. -/
def Pc.owesWriters : Pc → Bool
  | .readLoop .. | .readWakeup .. => true
  | _ => false

variable {ι : Type}

/-- No process sleeps on `&p->nread` while the pipe is non-empty or its write end is closed. -/
def ReadersServed (s : State ι) : Prop := ∀ q, (s.pc q).onNread = true → s.nread = s.nwrite ∧ s.writeopen = true

/-- No process sleeps on `&p->nwrite` while the pipe is not full or its read end is closed. -/
def WritersServed (s : State ι) : Prop := ∀ q, (s.pc q).onNwrite = true → s.full ∧ s.readopen = true

/-- What the holder of the lock has seen. -/
def Seen (s : State ι) : Pc → Prop
  | .writeFull .. | .writeSleep .. => s.full ∧ s.readopen = true
  | .readSleep _ => s.nread = s.nwrite ∧ s.writeopen = true
  | .writeReturn r => r = -1 → s.full ∨ ∀ q, (s.pc q).onNread = false
  | _ => True

structure Awake (s : State ι) : Prop where
  readers : ReadersServed s ∨ ∃ p, (s.pc p).owesReaders = true
  writers : WritersServed s ∨ ∃ p, (s.pc p).owesWriters = true
  seen : ∀ p, Seen s (s.pc p)

variable {tr : List (State ι × Event ι)} {s s' : State ι} {e : Event ι} {p q : ι} {x y : Pc}

theorem locks_of_owesReaders (owes : x.owesReaders = true) : x.locks = true := by
  cases x <;> first | rfl | cases owes

theorem locks_of_owesWriters (owes : x.owesWriters = true) : x.locks = true := by
  cases x <;> first | rfl | cases owes

theorem seen_of_not_locks (idle : x.locks = false) : Seen s x := by
  cases x with
  | user | writeAcquire | writeAsleep | writeAwake | readAcquire | readAsleep | readAwake | closeAcquire => trivial
  | writeLoop | writeFull | writeSleep | writeWakeup | writeReturn | readWait | readSleep | readLoop | readWakeup
  | readReturn | closeSet | closeRelease => cases idle

theorem not_full_of_empty (empty : s.nread = s.nwrite) : ¬ s.full := by
  unfold State.full
  rw [empty]
  intro same
  have sizes : (PIPESIZE : Nat) = 512 := rfl
  rw [sizes] at same
  bv_omega

/-! ## Who owes a wakeup -/

/-- While `p` has the lock the others are not inside of their critical sections. -/
theorem Inv.others_unlocked (inv : Inv tr s) (held : (s.pc p).locks = true) (ne : q ≠ p) : (s.pc q).locks = false := by
  rw [Bool.eq_false_iff]
  intro theirs
  have own := inv.lock p held
  rw [inv.lock q theirs] at own
  exact ne (Option.some.inj own)

/-- A debt that the holder of the lock does not have is nobody's. -/
theorem Inv.nobody_owes (inv : Inv tr s) {owes : Pc → Bool} (locks : ∀ {x}, owes x = true → x.locks = true)
    (held : (s.pc p).locks = true) (paid : owes (s.pc p) = false) : ¬ ∃ q, owes (s.pc q) = true := by
  rintro ⟨q, debt⟩
  rcases eq_or_ne q p with rfl | ne
  · rw [paid] at debt
    cases debt
  · have idle := inv.others_unlocked held ne
    rw [locks debt] at idle
    cases idle

theorem Awake.readersServed (awake : Awake s) (inv : Inv tr s) (code : s.pc p = y) (held : y.locks = true)
    (paid : y.owesReaders = false) : ReadersServed s := by
  subst code
  exact awake.readers.resolve_right (inv.nobody_owes locks_of_owesReaders held paid)

theorem Awake.writersServed (awake : Awake s) (inv : Inv tr s) (code : s.pc p = y) (held : y.locks = true)
    (paid : y.owesWriters = false) : WritersServed s := by
  subst code
  exact awake.writers.resolve_right (inv.nobody_owes locks_of_owesWriters held paid)

/-- With the lock free nobody owes a wakeup. -/
theorem Awake.served (awake : Awake s) (inv : Inv tr s) (free : s.lock = none) : ReadersServed s ∧ WritersServed s := by
  have unlocked (p : ι) (held : (s.pc p).locks = true) : False := by
    have own := inv.lock p held
    rw [free] at own
    cases own
  refine ⟨?_, ?_⟩
  · rcases awake.readers with served | ⟨p, owes⟩
    · exact served
    · exact (unlocked p (locks_of_owesReaders owes)).elim
  · rcases awake.writers with served | ⟨p, owes⟩
    · exact served
    · exact (unlocked p (locks_of_owesWriters owes)).elim

/-! ## Steps without the lock -/

/-- A step that changes no field of the pipe, puts nobody to sleep and pays no debt. -/
theorem Awake.aside (awake : Awake s) (nread : s'.nread = s.nread) (nwrite : s'.nwrite = s.nwrite)
    (readopen : s'.readopen = s.readopen) (writeopen : s'.writeopen = s.writeopen)
    (points : ∀ q, s'.pc q = s.pc q ∨ (s.pc q).locks = false ∧ (s'.pc q).onNread = false ∧
      (s'.pc q).onNwrite = false ∧ Seen s' (s'.pc q)) : Awake s' := by
  have full : s'.full ↔ s.full := by unfold State.full; rw [nread, nwrite]
  have onNread (q : ι) (asleep : (s'.pc q).onNread = true) : (s.pc q).onNread = true := by
    rcases points q with same | ⟨_, awake, _⟩
    · rwa [← same]
    · rw [awake] at asleep
      cases asleep
  refine ⟨?_, ?_, ?_⟩
  · refine awake.readers.imp ?_ ?_
    · intro served q asleep
      rw [nread, nwrite, writeopen]
      exact served q (onNread q asleep)
    · rintro ⟨p, owes⟩
      refine ⟨p, ?_⟩
      rcases points p with same | ⟨idle, _⟩
      · rwa [same]
      · rw [locks_of_owesReaders owes] at idle
        cases idle
  · refine awake.writers.imp ?_ ?_
    · intro served q asleep
      rw [full, readopen]
      refine served q ?_
      rcases points q with same | ⟨_, _, awake, _⟩
      · rwa [← same]
      · rw [awake] at asleep
        cases asleep
    · rintro ⟨p, owes⟩
      refine ⟨p, ?_⟩
      rcases points p with same | ⟨idle, _⟩
      · rwa [same]
      · rw [locks_of_owesWriters owes] at idle
        cases idle
  · intro q
    rcases points q with same | ⟨_, _, _, seen⟩
    · have before := awake.seen q
      rw [same]
      cases at_ : s.pc q with
      | writeReturn r =>
        rw [at_] at before
        intro minus
        refine (before minus).imp full.2 fun nobody q' => ?_
        rw [Bool.eq_false_iff]
        intro asleep
        have was := onNread q' asleep
        rw [nobody q'] at was
        cases was
      | writeFull | writeSleep =>
        rw [at_] at before
        exact ⟨full.2 before.1, readopen.trans before.2⟩
      | readSleep =>
        rw [at_] at before
        exact ⟨by rw [nread, nwrite]; exact before.1, writeopen.trans before.2⟩
      | user | writeAcquire | writeLoop | writeAsleep | writeAwake | writeWakeup | readAcquire | readWait | readAsleep
      | readAwake | readLoop | readWakeup | readReturn | closeAcquire | closeSet | closeRelease => trivial
    · exact seen

/-! ## Steps of the holder of the lock -/

/-- Whoever is at a point `on` has a reason to be there. -/
def Served (on : Pc → Bool) (reason : Prop) (s : State ι) : Prop := ∀ q, on (s.pc q) = true → reason

theorem Served.of_nobody {on : Pc → Bool} {reason : Prop} (nobody : ∀ q, on (s.pc q) = false) : Served on reason s := by
  intro q asleep
  rw [nobody q] at asleep
  cases asleep

theorem ReadersServed.wakeWriter (served : ReadersServed s) : ReadersServed (s.wake wakeWriter) := by
  intro q asleep
  refine served q ?_
  change (Pipe.wakeWriter (s.pc q)).onNread = true at asleep
  cases at_ : s.pc q <;> rw [at_] at asleep <;> exact asleep

theorem WritersServed.wakeReader (served : WritersServed s) : WritersServed (s.wake wakeReader) := by
  intro q asleep
  refine served q ?_
  change (Pipe.wakeReader (s.pc q)).onNwrite = true at asleep
  cases at_ : s.pc q <;> rw [at_] at asleep <;> exact asleep

section
variable [DecidableEq ι]

theorem Awake.holder (inv : Inv tr s) (code : s.pc p = y) (held : y.locks = true) {t : ι → Pc}
    (pc : s'.pc = Function.update t p x) (others : ∀ q, (t q).locks = (s.pc q).locks)
    (readers : ReadersServed s' ∨ x.owesReaders = true) (writers : WritersServed s' ∨ x.owesWriters = true)
    (seen : Seen s' x) : Awake s' := by
  have self : s'.pc p = x := by rw [pc, Function.update_self]
  refine ⟨readers.imp id fun owes => ⟨p, by rwa [self]⟩, writers.imp id fun owes => ⟨p, by rwa [self]⟩, fun q => ?_⟩
  rcases eq_or_ne q p with rfl | ne
  · rwa [self]
  · subst code
    rw [pc, Function.update_of_ne ne]
    exact seen_of_not_locks ((others q).trans (inv.others_unlocked held ne))

/-- The process does not go to sleep here, and the pipe stays as it is. -/
theorem Served.goto {on : Pc → Bool} {reason : Prop} (served : Served on reason s) (awake : on x = false) :
    Served on reason (s.goto p x) := by
  intro q asleep
  rcases eq_or_ne q p with rfl | ne
  · rw [goto_self, awake] at asleep
    cases asleep
  · rw [goto_others s p x q ne] at asleep
    exact served q asleep

/-- After a `wakeup` nobody sleeps there. -/
theorem wake_nobody {on : Pc → Bool} {f : Pc → Pc} (wakes : ∀ y, on (f y) = false) (awake : on x = false) (q : ι) :
    on (((s.wake f).goto p x).pc q) = false := by
  rcases eq_or_ne q p with rfl | ne
  · rwa [goto_self]
  · rw [goto_others _ p x q ne]
    exact wakes (s.pc q)

omit [DecidableEq ι] in
theorem onNread_wakeReader (y : Pc) : (wakeReader y).onNread = false := by cases y <;> rfl

omit [DecidableEq ι] in
theorem onNwrite_wakeWriter (y : Pc) : (wakeWriter y).onNwrite = false := by cases y <;> rfl

/-- The holder of the lock goes on, and not to sleep, when nobody is owed a wakeup. -/
theorem Awake.settled (inv : Inv tr s) (code : s.pc p = y) (held : y.locks = true) (readers : ReadersServed s)
    (writers : WritersServed s) (onNread : x.onNread = false) (onNwrite : x.onNwrite = false) {l : Option ι} {freed : Bool}
    (seen : Seen { s.goto p x with lock := l, freed := freed } x) : Awake { s.goto p x with lock := l, freed := freed } :=
  .holder inv code held rfl (fun _ => rfl) (.inl (Served.goto (p := p) readers onNread))
    (.inl (Served.goto (p := p) writers onNwrite)) seen

/-- `wakeup(&p->nread)`. -/
theorem Awake.wakesReaders (awake : Awake s) (inv : Inv tr s) (code : s.pc p = y) (held : y.locks = true)
    (paid : y.owesWriters = false) (onNread : x.onNread = false) (onNwrite : x.onNwrite = false) {w : Bool}
    (seen : Seen { (s.wake wakeReader).goto p x with writeopen := w } x) :
    Awake { (s.wake wakeReader).goto p x with writeopen := w } :=
  .holder inv code held rfl (fun _ => (alike_wakeReader _).locks)
    (.inl (Served.of_nobody (wake_nobody onNread_wakeReader onNread)))
    (.inl (Served.goto (p := p) (awake.writersServed inv code held paid).wakeReader onNwrite)) seen

/-- `wakeup(&p->nwrite)`. -/
theorem Awake.wakesWriters (awake : Awake s) (inv : Inv tr s) (code : s.pc p = y) (held : y.locks = true)
    (paid : y.owesReaders = false) (onNread : x.onNread = false) (onNwrite : x.onNwrite = false) {r : Bool}
    (seen : Seen { (s.wake wakeWriter).goto p x with readopen := r } x) :
    Awake { (s.wake wakeWriter).goto p x with readopen := r } :=
  .holder inv code held rfl (fun _ => (alike_wakeWriter _).locks)
    (.inl (Served.goto (p := p) (awake.readersServed inv code held paid).wakeWriter onNread))
    (.inl (Served.of_nobody (wake_nobody onNwrite_wakeWriter onNwrite))) seen

/-- A step inside a call, unless it gives up on a reader. -/
theorem advance_awake (inv : Inv tr s) (awake : Awake s)
    (guard : (s.pc p).givesUp = true → ∀ q, (s.pc q).onNread = false) (taken : advance s p = some s') : Awake s' := by
  have seen := awake.seen p
  unfold advance at taken
  cases code : s.pc p with
  | user | writeAsleep | readAsleep => simp [code] at taken
  | writeAcquire | writeAwake | readAcquire | readAwake | closeAcquire =>
    simp only [code, Option.ite_none_right_eq_some, Option.some.injEq] at taken
    obtain ⟨_, rfl⟩ := taken
    refine awake.aside rfl rfl rfl rfl fun q => ?_
    rcases eq_or_ne q p with rfl | ne
    · refine .inr ⟨by rw [code]; rfl, ?_⟩
      rw [show ({ s.goto q _ with lock := some q } : State ι).pc q = _ from goto_self s q _]
      exact ⟨rfl, rfl, trivial⟩
    · exact .inl (goto_others s p _ q ne)
  | writeLoop addr n i =>
    have writers : WritersServed s := awake.writersServed inv code rfl rfl
    simp only [code] at taken
    split_ifs at taken with more full gone
    · cases taken
      exact .holder inv code rfl rfl (fun _ => rfl) (.inr rfl) (.inl (Served.goto writers rfl)) fun _ => .inl full
    · cases taken
      refine .holder inv code rfl rfl (fun _ => rfl) (.inr rfl) (.inl (Served.goto writers rfl)) ⟨full, ?_⟩
      exact (Bool.eq_false_or_eq_true s.readopen).resolve_right fun closed => gone (.inl closed)
    · cases taken
      refine .holder inv code rfl rfl (fun _ => rfl) (.inr rfl) (.inl ?_) trivial
      -- a writer asleep would have seen the pipe full
      have nobody : ∀ q, (s.pc q).onNwrite = false := fun q => Bool.eq_false_iff.2 fun asleep => full (writers q asleep).1
      exact Served.goto (s := s.store (addr i)) (.of_nobody nobody) rfl
    · cases taken
      exact .holder inv code rfl rfl (fun _ => rfl) (.inr rfl) (.inl (Served.goto writers rfl)) trivial
  | writeFull addr n i =>
    rw [code] at seen
    simp only [code] at taken
    cases taken
    exact awake.wakesReaders (w := s.writeopen) inv code rfl rfl rfl rfl seen
  | writeSleep addr n i =>
    have writers : WritersServed s := awake.writersServed inv code rfl rfl
    rw [code] at seen
    simp only [code] at taken
    cases taken
    refine .holder inv code rfl rfl (fun _ => rfl)
      (.inl (Served.goto (p := p) (awake.readersServed inv code rfl rfl) rfl)) (.inl ?_) trivial
    intro q asleep
    rcases eq_or_ne q p with rfl | ne
    · exact seen
    · exact writers q (by rwa [← goto_others s p _ q ne])
  | writeWakeup n =>
    simp only [code] at taken
    cases taken
    exact awake.wakesReaders (w := s.writeopen) inv code rfl rfl rfl rfl fun _ => .inr (wake_nobody onNread_wakeReader rfl)
  | writeReturn r =>
    have readers : ReadersServed s := by
      by_cases up : (s.pc p).givesUp = true
      · exact Served.of_nobody (guard up)
      · refine awake.readersServed inv code rfl ?_
        rw [code] at up
        exact Bool.eq_false_iff.2 up
    simp only [code] at taken
    cases taken
    exact .settled inv code rfl readers (awake.writersServed inv code rfl rfl) rfl rfl trivial
  | readWait n =>
    have readers : ReadersServed s := awake.readersServed inv code rfl rfl
    have writers : WritersServed s := awake.writersServed inv code rfl rfl
    simp only [code] at taken
    split_ifs at taken with empty gone
    · cases taken
      exact .settled inv code rfl readers writers rfl rfl trivial
    · cases taken
      exact .settled inv code rfl readers writers rfl rfl empty
    · cases taken
      exact .settled inv code rfl readers writers rfl rfl trivial
  | readSleep n =>
    have readers : ReadersServed s := awake.readersServed inv code rfl rfl
    rw [code] at seen
    simp only [code] at taken
    cases taken
    refine .holder inv code rfl rfl (fun _ => rfl) (.inl ?_)
      (.inl (Served.goto (p := p) (awake.writersServed inv code rfl rfl) rfl)) trivial
    intro q asleep
    rcases eq_or_ne q p with rfl | ne
    · exact seen
    · exact readers q (by rwa [← goto_others s p _ q ne])
  | readLoop n i =>
    have readers : ReadersServed s := awake.readersServed inv code rfl rfl
    simp only [code] at taken
    split_ifs at taken with more
    · cases taken
      refine .holder inv code rfl rfl (fun _ => rfl) (.inl ?_) (.inr rfl) trivial
      -- a reader asleep would have seen the pipe empty
      have nobody : ∀ q, (s.pc q).onNread = false := fun q => Bool.eq_false_iff.2 fun asleep => more.2 (readers q asleep).1
      exact Served.goto (s := s) (p := p) (.of_nobody nobody) rfl
    · cases taken
      exact .holder inv code rfl rfl (fun _ => rfl) (.inl (Served.goto readers rfl)) (.inr rfl) trivial
  | readWakeup n i =>
    simp only [code] at taken
    cases taken
    exact awake.wakesWriters (r := s.readopen) inv code rfl rfl rfl rfl trivial
  | readReturn | closeRelease =>
    simp only [code] at taken
    cases taken
    exact .settled inv code rfl (awake.readersServed inv code rfl rfl) (awake.writersServed inv code rfl rfl) rfl rfl trivial
  | closeSet writable =>
    cases writable with
    | true =>
      simp only [code] at taken
      cases taken
      exact awake.wakesReaders inv code rfl rfl rfl rfl trivial
    | false =>
      simp only [code] at taken
      cases taken
      exact awake.wakesWriters inv code rfl rfl rfl rfl trivial

omit [DecidableEq ι] in
theorem rouse_awake (x : Pc) : (rouse x).onNread = false ∧ (rouse x).onNwrite = false := by
  cases x <;> exact ⟨rfl, rfl⟩

/-- A process without the lock is moved to a point where it does not sleep. -/
theorem Awake.outside (awake : Awake s) (idle : (s.pc p).locks = false) (point : x.locks = false)
    (onNread : x.onNread = false) (onNwrite : x.onNwrite = false) : Awake (s.goto p x) := by
  refine awake.aside rfl rfl rfl rfl fun q => ?_
  rcases eq_or_ne q p with rfl | ne
  · refine .inr ⟨idle, ?_⟩
    rw [goto_self]
    exact ⟨onNread, onNwrite, seen_of_not_locks point⟩
  · exact .inl (goto_others s p x q ne)

omit [DecidableEq ι] in
/-- A sleeper is roused, or nothing happens. -/
theorem rouse_eq_or (x : Pc) : rouse x = x ∨ x.locks = false ∧ (rouse x).locks = false := by
  cases x <;> first | exact .inl rfl | exact .inr ⟨rfl, rfl⟩

theorem Awake.rouse (awake : Awake s) : Awake (s.goto p (rouse (s.pc p))) := by
  rcases rouse_eq_or (s.pc p) with same | ⟨before, after⟩
  · rw [same]
    exact awake.aside rfl rfl rfl rfl fun q => .inl (by rw [State.goto, Function.update_eq_self])
  · exact awake.outside before after (rouse_awake _).1 (rouse_awake _).2

theorem call_awake (awake : Awake s) (point : x.locks = false) (onNread : x.onNread = false)
    (onNwrite : x.onNwrite = false) (taken : s.call p x = some s') : Awake s' := by
  unfold State.call at taken
  split at taken
  · rename_i code
    cases taken
    exact awake.outside (by rw [code]; rfl) point onNread onNwrite
  · cases taken

/-- The step releases the lock of a `pipewrite` that returns -1 while a reader sleeps. -/
def StrandsReader (s : State ι) : Event ι → Prop
  | .advance p => (s.pc p).givesUp = true ∧ ∃ q, (s.pc q).onNread = true
  | _ => False

theorem step_awake (inv : Inv tr s) (awake : Awake s) (guard : ¬ StrandsReader s e) (taken : step s e = some s') :
    Awake s' := by
  unfold step at taken
  split_ifs at taken
  cases e with
  | write p addr n => exact call_awake awake rfl rfl rfl taken
  | read p n => exact call_awake awake rfl rfl rfl taken
  | close p writable => exact call_awake awake rfl rfl rfl taken
  | advance p =>
    refine advance_awake inv awake (fun up q => ?_) taken
    exact Bool.eq_false_iff.2 fun asleep => guard ⟨up, q, asleep⟩
  | kill p =>
    cases taken
    have roused := awake.rouse (p := p)
    exact ⟨roused.readers, roused.writers, roused.seen⟩
  | sigsend p =>
    cases taken
    exact awake.rouse

variable {data : Nat → Byte} {killed : ι → Bool}

theorem run_inv (run : Run step (pipealloc data killed) tr s) : Inv tr s :=
  run.history Inv (pipealloc_inv data killed) fun _ _ _ _ => step_inv

theorem run_awake (run : Run step (pipealloc data killed) tr s) (guard : ∀ q ∈ tr, ¬ StrandsReader q.1 q.2) : Awake s := by
  induction run with
  | start =>
    exact ⟨.inl (Served.of_nobody fun _ => rfl), .inl (Served.of_nobody fun _ => rfl), fun _ => trivial⟩
  | @next tr s s' e run taken ih =>
    have awake := ih fun q member => guard q (List.mem_append_left _ member)
    exact step_awake (run_inv run) awake (guard (s, e) (by simp)) taken

/-- The lock is released over a reader who sleeps on a full pipe. -/
theorem StrandsReader.unserved (awake : Awake s) (strands : StrandsReader s e) (taken : step s e = some s') :
    s'.lock = none ∧ ¬ ReadersServed s' := by
  cases e with
  | write | read | close | kill | sigsend => exact strands.elim
  | advance p =>
    obtain ⟨up, q, asleep⟩ := strands
    have seen := awake.seen p
    cases code : s.pc p with
    | writeReturn r =>
      rw [code] at up seen
      have full : s.full := by
        rcases seen (by simpa [Pc.givesUp] using up) with full | nobody
        · exact full
        · rw [nobody q] at asleep
          cases asleep
      unfold step at taken
      split_ifs at taken
      simp only [advance, code] at taken
      cases taken
      refine ⟨rfl, fun served => ?_⟩
      have ne : q ≠ p := by
        rintro rfl
        rw [code] at asleep
        cases asleep
      have still : ((s.goto p .user).pc q).onNread = true := by rwa [goto_others s p _ q ne]
      exact not_full_of_empty (served q still).1 full
    | user | writeAcquire | writeLoop | writeFull | writeSleep | writeAsleep | writeAwake | writeWakeup | readAcquire
    | readWait | readSleep | readAsleep | readAwake | readLoop | readWakeup | readReturn | closeAcquire | closeSet
    | closeRelease =>
      rw [code] at up
      cases up

/-- **Sleepers that the pipe could serve.** In a run every state with the lock free has no process asleep on
`&p->nread` with the pipe non-empty or its write end closed, and none asleep on `&p->nwrite` with the pipe not full or
its read end closed, if and only if no `pipewrite` of the run returns -1 while a reader sleeps. -/
theorem sleepers_served_iff (run : Run step (pipealloc data killed) tr s) :
    (∀ t ∈ visited tr s, t.lock = none → ReadersServed t ∧ WritersServed t) ↔ ∀ q ∈ tr, ¬ StrandsReader q.1 q.2 := by
  constructor
  · intro served
    induction run with
    | start => exact nofun
    | @next tr s s' e run taken ih =>
      have guard : ∀ q ∈ tr, ¬ StrandsReader q.1 q.2 := by
        refine ih fun t member => served t ?_
        rcases mem_visited.1 member with ⟨f, inside⟩ | rfl
        · exact mem_visited.2 (.inl ⟨f, List.mem_append_left _ inside⟩)
        · exact mem_visited.2 (.inl ⟨e, by simp⟩)
      intro q member strands
      rcases List.mem_append.1 member with old | new
      · exact guard q old strands
      · rw [List.mem_singleton.1 new] at strands
        obtain ⟨free, unserved⟩ := strands.unserved (run_awake run guard) taken
        exact unserved (served s' (mem_visited.2 (.inr rfl)) free).1
  · intro guard t member free
    obtain ⟨pre, rest, rfl, reached⟩ := run.prefix_of_visited member
    have awake := run_awake reached fun q inside => guard q (List.mem_append_left _ inside)
    exact awake.served (run_inv reached) free

end

instance [Fintype ι] (s : State ι) (e : Event ι) : Decidable (StrandsReader s e) := by
  unfold StrandsReader
  split <;> infer_instance

instance [Fintype ι] (s : State ι) : Decidable (ReadersServed s) :=
  inferInstanceAs (Decidable (∀ q, (s.pc q).onNread = true → s.nread = s.nwrite ∧ s.writeopen = true))

/-- Process 1 goes to sleep in `piperead`; process 0 writes `n` bytes. -/
def readThenWrite (n : Nat) : List (Event (Fin 2)) :=
  [.read 1 1, .advance 1, .advance 1, .advance 1, .write 0 (fun _ => 7) n] ++ List.replicate (n + 4) (.advance 0)

/-- A writer that has time for its `wakeup` strands nobody. -/
theorem sleepers_served_oneByte : ∃ tr s, Run step (pipealloc (fun _ => 0) fun _ : Fin 2 => false) tr s ∧
    s.lock = none ∧ ReadersServed s ∧ WritersServed s := by
  have final : (exec step (pipealloc (fun _ => 0) fun _ : Fin 2 => false) (readThenWrite 1)).map
      (fun s => s.lock) = some none := by decide +kernel
  have modest : ∀ q ∈ record step (pipealloc (fun _ => 0) fun _ : Fin 2 => false) (readThenWrite 1),
      ¬ StrandsReader q.1 q.2 := by decide +kernel
  obtain ⟨s, done, free⟩ := Option.map_eq_some_iff.1 final
  have run := run_of_exec done
  exact ⟨_, s, run, free, (sleepers_served_iff run).2 modest s (by simp [visited]) free⟩

/-- Process 0 calls `pipewrite`, is killed on its way, and fills the pipe. -/
def killedWhileWriting : List (Event (Fin 2)) :=
  (readThenWrite 513).take 5 ++ .kill 0 :: List.replicate 515 (.advance 0)

/-- The killed writer returns -1 and process 1 sleeps on a full pipe. -/
theorem killed_writer_strands_reader : ∃ tr s, Run step (pipealloc (fun _ => 0) fun _ : Fin 2 => false) tr s ∧
    s.lock = none ∧ (s.pc 1).onNread = true ∧ s.full := by
  have final : (exec step (pipealloc (fun _ => 0) fun _ : Fin 2 => false) killedWhileWriting).map
      (fun s => (s.lock, (s.pc 1).onNread, decide s.full)) = some (none, true, true) := by decide +kernel
  obtain ⟨s, done, seen⟩ := Option.map_eq_some_iff.1 final
  have run := run_of_exec done
  simp only [Prod.mk.injEq, decide_eq_true_eq] at seen
  exact ⟨_, s, run, seen⟩

end Xv6.Pipe
