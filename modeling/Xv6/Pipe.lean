import Xv6.Lib.Ring
import Xv6.Lib.Run

/-!
# Pipes

`pipewrite`, `piperead` and `pipeclose` by any number of processes on one pipe. A
step is a lock operation, one round of a loop, a `wakeup` or a `sleep`; between two
steps of a process any other process may take any number of steps that the lock
admits. What a run stores and delivers is read off its steps, so that the bytes of
the pipe are compared with the whole history, across any number of wrap-arounds of
the 32-bit counters.
-/

namespace Xv6.Pipe

open Xv6.Lib

def PIPESIZE : Nat := 512

abbrev Byte := BitVec 8

/-- Where a process is in a call. The lock is held from `writeLoop` and `readWait` on, until the release. -/
inductive Pc where
  | user
  /-- `pipewrite`: `acquire(&p->lock)` -/
  | writeAcquire (addr : Nat → Byte) (n : Int)
  /-- the head of the loops, with `i` bytes stored -/
  | writeLoop (addr : Nat → Byte) (n : Int) (i : Nat)
  /-- the pipe is full: `wakeup(&p->nread)` -/
  | writeFull (addr : Nat → Byte) (n : Int) (i : Nat)
  /-- `sleep(&p->nwrite, &p->lock)` -/
  | writeSleep (addr : Nat → Byte) (n : Int) (i : Nat)
  /-- asleep on `&p->nwrite` -/
  | writeAsleep (addr : Nat → Byte) (n : Int) (i : Nat)
  /-- woken, about to reacquire the lock -/
  | writeAwake (addr : Nat → Byte) (n : Int) (i : Nat)
  /-- after the loop: `wakeup(&p->nread)` -/
  | writeWakeup (n : Int)
  /-- `release(&p->lock)` and the return of `r` -/
  | writeReturn (r : Int)
  /-- `piperead`: `acquire(&p->lock)` -/
  | readAcquire (n : Int)
  /-- the head of the `while` -/
  | readWait (n : Int)
  /-- `sleep(&p->nread, &p->lock)` -/
  | readSleep (n : Int)
  /-- asleep on `&p->nread` -/
  | readAsleep (n : Int)
  /-- woken, about to reacquire the lock -/
  | readAwake (n : Int)
  /-- the head of the `for`, with `i` bytes copied -/
  | readLoop (n : Int) (i : Nat)
  /-- after the loop: `wakeup(&p->nwrite)` -/
  | readWakeup (n : Int) (i : Nat)
  /-- `release(&p->lock)` and the return of `r`, in a call for `n` bytes -/
  | readReturn (n r : Int)
  /-- `pipeclose`: `acquire(&p->lock)` -/
  | closeAcquire (writable : Bool)
  /-- the store to `writeopen` or `readopen`, and the `wakeup` -/
  | closeSet (writable : Bool)
  /-- `release(&p->lock)`, and `kfree` if both ends are closed -/
  | closeRelease

/-- `struct pipe`, who holds its lock, and the processes that use it. -/
structure State (ι : Type) where
  data : Nat → Byte
  nread : BitVec 32
  nwrite : BitVec 32
  readopen : Bool
  writeopen : Bool
  lock : Option ι
  freed : Bool
  killed : ι → Bool
  pc : ι → Pc

variable {ι : Type} [DecidableEq ι]

/-- The pipe that `pipealloc` makes; the data are what `kalloc` left. -/
def pipealloc (data : Nat → Byte) (killed : ι → Bool) : State ι where
  data := data
  nread := 0
  nwrite := 0
  readopen := true
  writeopen := true
  lock := none
  freed := false
  killed := killed
  pc := fun _ => .user

def State.goto (s : State ι) (p : ι) (x : Pc) : State ι := { s with pc := Function.update s.pc p x }

/-- `wakeup(&p->nread)`. -/
def wakeReader : Pc → Pc
  | .readAsleep n => .readAwake n
  | x => x

/-- `wakeup(&p->nwrite)`. -/
def wakeWriter : Pc → Pc
  | .writeAsleep addr n i => .writeAwake addr n i
  | x => x

/-- A sleeper that is killed or sent a signal wakes up. -/
def rouse (x : Pc) : Pc := wakeReader (wakeWriter x)

def State.wake (s : State ι) (f : Pc → Pc) : State ι := { s with pc := fun q => f (s.pc q) }

/-- `p->nwrite == p->nread + PIPESIZE`. -/
def State.full (s : State ι) : Prop := s.nwrite = s.nread + BitVec.ofNat 32 PIPESIZE

instance (s : State ι) : Decidable s.full := inferInstanceAs (Decidable (_ = _))

/-- `p->data[p->nwrite++ % PIPESIZE] = x`. -/
def State.store (s : State ι) (x : Byte) : State ι :=
  { s with data := Function.update s.data (s.nwrite.toNat % PIPESIZE) x, nwrite := s.nwrite + 1 }

/-- The next step of process `p`. -/
def advance (s : State ι) (p : ι) : Option (State ι) :=
  match s.pc p with
  | .user | .writeAsleep .. | .readAsleep _ => none
  | .writeAcquire addr n => if s.lock = none then some { s.goto p (.writeLoop addr n 0) with lock := some p } else none
  | .writeLoop addr n i =>
    if (i : Int) < n then
      if s.full then
        if s.readopen = false ∨ s.killed p = true then some (s.goto p (.writeReturn (-1)))
        else some (s.goto p (.writeFull addr n i))
      else some ((s.store (addr i)).goto p (.writeLoop addr n (i + 1)))
    else some (s.goto p (.writeWakeup n))
  | .writeFull addr n i => some ((s.wake wakeReader).goto p (.writeSleep addr n i))
  | .writeSleep addr n i => some { s.goto p (.writeAsleep addr n i) with lock := none }
  | .writeAwake addr n i => if s.lock = none then some { s.goto p (.writeLoop addr n i) with lock := some p } else none
  | .writeWakeup n => some ((s.wake wakeReader).goto p (.writeReturn n))
  | .writeReturn _ => some { s.goto p .user with lock := none }
  | .readAcquire n => if s.lock = none then some { s.goto p (.readWait n) with lock := some p } else none
  | .readWait n =>
    if s.nread = s.nwrite ∧ s.writeopen = true then
      if s.killed p = true then some (s.goto p (.readReturn n (-1))) else some (s.goto p (.readSleep n))
    else some (s.goto p (.readLoop n 0))
  | .readSleep n => some { s.goto p (.readAsleep n) with lock := none }
  | .readAwake n => if s.lock = none then some { s.goto p (.readWait n) with lock := some p } else none
  | .readLoop n i =>
    if (i : Int) < n ∧ s.nread ≠ s.nwrite then some { s.goto p (.readLoop n (i + 1)) with nread := s.nread + 1 }
    else some (s.goto p (.readWakeup n i))
  | .readWakeup n i => some ((s.wake wakeWriter).goto p (.readReturn n i))
  | .readReturn _ _ => some { s.goto p .user with lock := none }
  | .closeAcquire writable => if s.lock = none then some { s.goto p (.closeSet writable) with lock := some p } else none
  | .closeSet true => some { (s.wake wakeReader).goto p .closeRelease with writeopen := false }
  | .closeSet false => some { (s.wake wakeWriter).goto p .closeRelease with readopen := false }
  | .closeRelease =>
    some { s.goto p .user with lock := none, freed := !s.readopen && !s.writeopen }

/-- A call, the next step of a call, or a signal from outside. -/
inductive Event (ι : Type) where
  | write (p : ι) (addr : Nat → Byte) (n : Int)
  | read (p : ι) (n : Int)
  | close (p : ι) (writable : Bool)
  | advance (p : ι)
  | kill (p : ι)
  | sigsend (p : ι)

/-- Process `p` calls one of the three functions. -/
def State.call (s : State ι) (p : ι) (x : Pc) : Option (State ι) :=
  match s.pc p with
  | .user => some (s.goto p x)
  | _ => none

/-- The steps. A pipe both of whose ends are closed is freed; the reference counts of `file.c` leave nobody
who could use it then. -/
def step (s : State ι) (e : Event ι) : Option (State ι) :=
  if s.freed then none
  else match e with
    | .write p addr n => s.call p (.writeAcquire addr n)
    | .read p n => s.call p (.readAcquire n)
    | .close p writable => s.call p (.closeAcquire writable)
    | .advance p => advance s p
    | .kill p => some { s.goto p (rouse (s.pc p)) with killed := Function.update s.killed p true }
    | .sigsend p => some (s.goto p (rouse (s.pc p)))

/-! ## What a run stores and delivers -/

/-- The byte that a step of `pipewrite` stores. -/
def storedBy (s : State ι) : Event ι → List Byte
  | .advance p => match s.pc p with
    | .writeLoop addr n i => if (i : Int) < n ∧ ¬ s.full then [addr i] else []
    | _ => []
  | _ => []

/-- The byte that a step of `piperead` copies out: `addr[i] = p->data[p->nread++ % PIPESIZE]`. -/
def deliveredBy (s : State ι) : Event ι → List Byte
  | .advance p => match s.pc p with
    | .readLoop n i => if (i : Int) < n ∧ s.nread ≠ s.nwrite then [s.data (s.nread.toNat % PIPESIZE)] else []
    | _ => []
  | _ => []

/-- All bytes stored in a run, in order. -/
def stored (tr : List (State ι × Event ι)) : List Byte := tr.flatMap fun q => storedBy q.1 q.2

/-- All bytes delivered in a run, in order. -/
def delivered (tr : List (State ι × Event ι)) : List Byte := tr.flatMap fun q => deliveredBy q.1 q.2

variable {tr : List (State ι × Event ι)} {s s' : State ι} {e : Event ι} {p q : ι} {x : Pc}

section
omit [DecidableEq ι]

theorem stored_snoc (tr : List (State ι × Event ι)) (s : State ι) (e : Event ι) :
    stored (tr ++ [(s, e)]) = stored tr ++ storedBy s e := by simp [stored]

theorem delivered_snoc (tr : List (State ι × Event ι)) (s : State ι) (e : Event ι) :
    delivered (tr ++ [(s, e)]) = delivered tr ++ deliveredBy s e := by simp [delivered]

/-! ## The invariant -/

/-- The process holds the lock at this point. -/
def Pc.locks : Pc → Bool
  | .writeLoop .. | .writeFull .. | .writeSleep .. | .writeWakeup _ | .writeReturn _ | .readWait _ | .readSleep _
  | .readLoop .. | .readWakeup .. | .readReturn .. | .closeSet _ | .closeRelease => true
  | _ => false

/-- What a `piperead` that has copied nothing knows: whether the pipe is empty, and its write end closed. -/
def Drained (empty closed : Prop) : Pc → Prop
  | .readLoop _ i => i = 0 → empty → closed
  | .readWakeup n i => 0 < n → i = 0 → empty ∧ closed
  | .readReturn n r => 0 < n → r = 0 → empty ∧ closed
  | _ => True

/-- Nothing is claimed about a process without the lock. -/
theorem drained_of_not_locks {empty closed : Prop} {x : Pc} (idle : x.locks = false) : Drained empty closed x := by
  cases x <;> trivial

/-- The pipe holds what has been stored and not yet delivered. -/
def Contents (tr : List (State ι × Event ι)) (s : State ι) : Prop :=
  ∃ unread, stored tr = delivered tr ++ unread ∧ Ring.Holds PIPESIZE s.data s.nread s.nwrite unread

/-- The invariant of a run that took the steps `tr` and reached `s`. -/
structure Inv (tr : List (State ι × Event ι)) (s : State ι) : Prop where
  lock : ∀ p, (s.pc p).locks = true → s.lock = some p
  drained : ∀ p, Drained (s.nread = s.nwrite) (s.writeopen = false) (s.pc p)
  contents : Contents tr s

theorem PIPESIZE_dvd : PIPESIZE ∣ 2 ^ 32 := by decide

theorem PIPESIZE_lt : PIPESIZE < 2 ^ 32 := by decide

/-- A step that neither stores nor delivers. -/
theorem Contents.same (contents : Contents tr s) (noStore : storedBy s e = []) (noDelivery : deliveredBy s e = [])
    (data : s'.data = s.data) (nread : s'.nread = s.nread) (nwrite : s'.nwrite = s.nwrite) :
    Contents (tr ++ [(s, e)]) s' := by
  obtain ⟨unread, split, holds⟩ := contents
  refine ⟨unread, ?_, by rwa [data, nread, nwrite]⟩
  rw [stored_snoc, delivered_snoc, noStore, noDelivery, List.append_nil, List.append_nil, split]

/-- A byte is stored in a pipe that is not full. -/
theorem Contents.store {y : Byte} (contents : Contents tr s) (room : ¬ s.full) (stores : storedBy s e = [y])
    (noDelivery : deliveredBy s e = []) (data : s'.data = (s.store y).data) (nread : s'.nread = s.nread)
    (nwrite : s'.nwrite = s.nwrite + 1) : Contents (tr ++ [(s, e)]) s' := by
  obtain ⟨unread, split, holds⟩ := contents
  have fewer : unread.length < PIPESIZE :=
    Nat.lt_of_le_of_ne holds.fits fun full => room ((holds.full_iff PIPESIZE_lt).2 full)
  refine ⟨unread ++ [y], ?_, ?_⟩
  · rw [stored_snoc, delivered_snoc, stores, noDelivery, List.append_nil, split, List.append_assoc]
  · rw [data, nread, nwrite]
    exact holds.push PIPESIZE_dvd fewer y

/-- The oldest byte is delivered. -/
theorem Contents.deliver (contents : Contents tr s) (some' : s.nread ≠ s.nwrite) (noStore : storedBy s e = [])
    (delivers : deliveredBy s e = [s.data (s.nread.toNat % PIPESIZE)]) (data : s'.data = s.data)
    (nread : s'.nread = s.nread + 1) (nwrite : s'.nwrite = s.nwrite) : Contents (tr ++ [(s, e)]) s' := by
  obtain ⟨unread, split, holds⟩ := contents
  cases unread with
  | nil => exact absurd ((holds.empty_iff PIPESIZE_lt).2 rfl) some'
  | cons y rest =>
    obtain ⟨oldest, holds'⟩ := holds.pop
    refine ⟨rest, ?_, ?_⟩
    · rw [stored_snoc, delivered_snoc, noStore, delivers, oldest, List.append_nil, split, List.append_assoc]
      rfl
    · rw [data, nread, nwrite]
      exact holds'

/-- Two points of which the invariant says the same. -/
structure Alike (x y : Pc) : Prop where
  locks : x.locks = y.locks
  drained : ∀ empty closed, Drained empty closed x ↔ Drained empty closed y

theorem Alike.refl (x : Pc) : Alike x x := ⟨rfl, fun _ _ => Iff.rfl⟩

theorem alike_wakeReader (x : Pc) : Alike (wakeReader x) x := by
  cases x <;> exact ⟨rfl, fun _ _ => Iff.rfl⟩

theorem alike_wakeWriter (x : Pc) : Alike (wakeWriter x) x := by
  cases x <;> exact ⟨rfl, fun _ _ => Iff.rfl⟩

theorem alike_rouse (x : Pc) : Alike (rouse x) x := by
  cases x <;> exact ⟨rfl, fun _ _ => Iff.rfl⟩

/-- A step of process `p` to the point `x`: other processes stay where they are or are woken, the lock moves
only from or to `p`, and only its holder changes counters or ends. -/
theorem Inv.move (inv : Inv tr s) (self : s'.pc p = x) (others : ∀ q ≠ p, Alike (s'.pc q) (s.pc q))
    (mine : x.locks = true → s'.lock = some p) (moves : s'.lock = s.lock ∨ s.lock = none ∨ s.lock = some p)
    (fields : s.lock = some p ∨ s'.nread = s.nread ∧ s'.nwrite = s.nwrite ∧ s'.writeopen = s.writeopen)
    (drained : Drained (s'.nread = s'.nwrite) (s'.writeopen = false) x) (contents : Contents (tr ++ [(s, e)]) s') :
    Inv (tr ++ [(s, e)]) s' where
  lock q holds := by
    rcases eq_or_ne q p with rfl | ne
    · exact mine (self ▸ holds)
    · rw [(others q ne).locks] at holds
      have held := inv.lock q holds
      rcases moves with same | free | own
      · rw [same, held]
      · rw [held] at free
        cases free
      · rw [held] at own
        exact absurd (Option.some.inj own) ne
  drained q := by
    rcases eq_or_ne q p with rfl | ne
    · rw [self]
      exact drained
    · rw [(others q ne).drained]
      rcases fields with own | ⟨nread, nwrite, writeopen⟩
      · -- `q` does not hold the lock, and without it nothing is claimed
        have idle : (s.pc q).locks = false := by
          rw [Bool.eq_false_iff]
          intro holds
          rw [inv.lock q holds] at own
          exact ne (Option.some.inj own)
        exact drained_of_not_locks idle
      · rw [nread, nwrite, writeopen]
        exact inv.drained q
  contents := contents

/-- The process neither stores nor delivers a byte at this point. -/
def Pc.silent : Pc → Bool
  | .writeLoop .. | .readLoop .. => false
  | _ => true

theorem Contents.silent (contents : Contents tr s) (silent : (s.pc p).silent = true) (data : s'.data = s.data)
    (nread : s'.nread = s.nread) (nwrite : s'.nwrite = s.nwrite) : Contents (tr ++ [(s, .advance p)]) s' := by
  refine contents.same ?_ ?_ data nread nwrite
  · unfold storedBy
    dsimp only
    split
    · rename_i code
      rw [code] at silent
      cases silent
    · rfl
  · unfold deliveredBy
    dsimp only
    split
    · rename_i code
      rw [code] at silent
      cases silent
    · rfl

end

theorem goto_self (s : State ι) (p : ι) (x : Pc) : (s.goto p x).pc p = x := Function.update_self ..

theorem goto_others (s : State ι) (p : ι) (x : Pc) : ∀ q ≠ p, (s.goto p x).pc q = s.pc q :=
  fun _ ne => Function.update_of_ne ne ..

theorem goto_alike (s : State ι) (p : ι) (x : Pc) : ∀ q ≠ p, Alike ((s.goto p x).pc q) (s.pc q) := by
  intro q ne
  rw [goto_others s p x q ne]
  exact .refl _

/-- `acquire(&p->lock)`. -/
theorem Inv.acquire (inv : Inv tr s) (silent : (s.pc p).silent = true) (free : s.lock = none)
    (drained : Drained (s.nread = s.nwrite) (s.writeopen = false) x) :
    Inv (tr ++ [(s, .advance p)]) { s.goto p x with lock := some p } :=
  inv.move (goto_self s p x) (goto_alike s p x) (fun _ => rfl) (.inr (.inl free)) (.inr ⟨rfl, rfl, rfl⟩) drained
    (inv.contents.silent silent rfl rfl rfl)

/-- `release(&p->lock)`, alone or in `sleep`. -/
theorem Inv.release {freed : Bool} (inv : Inv tr s) (silent : (s.pc p).silent = true) (held : (s.pc p).locks = true)
    (outside : x.locks = false) : Inv (tr ++ [(s, .advance p)]) { s.goto p x with lock := none, freed := freed } := by
  refine inv.move (goto_self s p x) (goto_alike s p x) ?_ (.inr (.inr (inv.lock p held))) (.inr ⟨rfl, rfl, rfl⟩) ?_
    (inv.contents.silent silent rfl rfl rfl)
  · intro locks
    rw [outside] at locks
    cases locks
  · exact drained_of_not_locks outside

/-- A step that only moves on, with the lock held. -/
theorem Inv.go (inv : Inv tr s) (held : (s.pc p).locks = true)
    (drained : Drained (s.nread = s.nwrite) (s.writeopen = false) x) (noStore : storedBy s (.advance p) = [])
    (noDelivery : deliveredBy s (.advance p) = []) : Inv (tr ++ [(s, .advance p)]) (s.goto p x) :=
  inv.move (goto_self s p x) (goto_alike s p x) (fun _ => inv.lock p held) (.inl rfl) (.inr ⟨rfl, rfl, rfl⟩) drained
    (inv.contents.same noStore noDelivery rfl rfl rfl)

/-- `wakeup`, with the lock held. -/
theorem Inv.wake {f : Pc → Pc} (alike : ∀ x, Alike (f x) x) (inv : Inv tr s) (silent : (s.pc p).silent = true)
    (held : (s.pc p).locks = true) (drained : Drained (s.nread = s.nwrite) (s.writeopen = false) x) :
    Inv (tr ++ [(s, .advance p)]) ((s.wake f).goto p x) := by
  refine inv.move (goto_self _ p x) ?_ (fun _ => inv.lock p held) (.inl rfl) (.inr ⟨rfl, rfl, rfl⟩) drained
    (inv.contents.silent silent rfl rfl rfl)
  intro q ne
  rw [goto_others _ p x q ne]
  exact alike _

/-- A step inside a call keeps the invariant. -/
theorem advance_inv (inv : Inv tr s) (taken : advance s p = some s') : Inv (tr ++ [(s, .advance p)]) s' := by
  have seen := inv.drained p
  have held : (s.pc p).locks = true → s.lock = some p := inv.lock p
  unfold advance at taken
  cases code : s.pc p with
  | user | writeAsleep | readAsleep => simp [code] at taken
  | writeAcquire | writeAwake | readAcquire | readAwake | closeAcquire =>
    simp only [code, Option.ite_none_right_eq_some, Option.some.injEq] at taken
    obtain ⟨free, rfl⟩ := taken
    exact inv.acquire (by rw [code]; rfl) free trivial
  | writeSleep | writeReturn | readSleep | readReturn | closeRelease =>
    simp only [code] at taken
    cases taken
    exact inv.release (by rw [code]; rfl) (by rw [code]; rfl) rfl
  | writeFull | writeWakeup =>
    simp only [code] at taken
    cases taken
    exact inv.wake alike_wakeReader (by rw [code]; rfl) (by rw [code]; rfl) trivial
  | writeLoop addr n i =>
    have own : s.lock = some p := held (by rw [code]; rfl)
    simp only [code] at taken
    split_ifs at taken with more full gone
    · cases taken
      exact inv.go (by rw [code]; rfl) trivial (by simp [storedBy, code, full]) (by simp [deliveredBy, code])
    · cases taken
      exact inv.go (by rw [code]; rfl) trivial (by simp [storedBy, code, full]) (by simp [deliveredBy, code])
    · cases taken
      refine inv.move (goto_self _ p _) (goto_alike _ p _) (fun _ => own) (.inl rfl) (.inl own) trivial ?_
      exact inv.contents.store full (by simp [storedBy, code, more, full]) (by simp [deliveredBy, code]) rfl rfl rfl
    · cases taken
      exact inv.go (by rw [code]; rfl) trivial (by simp [storedBy, code, more]) (by simp [deliveredBy, code])
  | readWait n =>
    simp only [code] at taken
    split_ifs at taken with empty gone
    · cases taken
      exact inv.go (by rw [code]; rfl) (fun _ impossible => by cases impossible) (by simp [storedBy, code])
        (by simp [deliveredBy, code])
    · cases taken
      exact inv.go (by rw [code]; rfl) trivial (by simp [storedBy, code]) (by simp [deliveredBy, code])
    · cases taken
      refine inv.go (by rw [code]; rfl) ?_ (by simp [storedBy, code]) (by simp [deliveredBy, code])
      intro _ none
      simpa [none] using empty
  | readLoop n i =>
    have own : s.lock = some p := held (by rw [code]; rfl)
    rw [code] at seen
    simp only [code] at taken
    split_ifs at taken with more
    · cases taken
      refine inv.move (goto_self s p _) (goto_alike s p _) (fun _ => own) (.inl rfl) (.inl own)
        (fun first => absurd first (Nat.succ_ne_zero i)) ?_
      exact inv.contents.deliver more.2 (by simp [storedBy, code]) (by simp [deliveredBy, code, more]) rfl rfl rfl
    · cases taken
      refine inv.go (by rw [code]; rfl) ?_ (by simp [storedBy, code]) (by simp [deliveredBy, code, more])
      intro positive first
      have empty : s.nread = s.nwrite := by
        by_contra left
        exact more ⟨by omega, left⟩
      exact ⟨empty, seen first empty⟩
  | readWakeup n i =>
    rw [code] at seen
    simp only [code] at taken
    cases taken
    refine inv.wake alike_wakeWriter (by rw [code]; rfl) (by rw [code]; rfl) ?_
    intro positive none
    exact seen positive (Int.natCast_eq_zero.1 none)
  | closeSet writable =>
    have own : s.lock = some p := held (by rw [code]; rfl)
    cases writable with
    | true =>
      simp only [code] at taken
      cases taken
      refine inv.move (goto_self _ p _) ?_ (fun _ => own) (.inl rfl) (.inl own) trivial
        (inv.contents.silent (by rw [code]; rfl) rfl rfl rfl)
      intro q ne
      exact goto_others (s.wake wakeReader) p _ q ne ▸ alike_wakeReader _
    | false =>
      simp only [code] at taken
      cases taken
      refine inv.move (goto_self _ p _) ?_ (fun _ => own) (.inl rfl) (.inl own) trivial
        (inv.contents.silent (by rw [code]; rfl) rfl rfl rfl)
      intro q ne
      exact goto_others (s.wake wakeWriter) p _ q ne ▸ alike_wakeWriter _

omit [DecidableEq ι] in
/-- The start of a call, or a wakeup from outside: a process without the lock goes on without it. -/
theorem Inv.outside (inv : Inv tr s) (alike : Alike x (s.pc p)) (noStore : storedBy s e = [])
    (noDelivery : deliveredBy s e = []) (self : s'.pc p = x) (others : ∀ q ≠ p, s'.pc q = s.pc q)
    (lock : s'.lock = s.lock) (data : s'.data = s.data) (nread : s'.nread = s.nread) (nwrite : s'.nwrite = s.nwrite)
    (writeopen : s'.writeopen = s.writeopen) : Inv (tr ++ [(s, e)]) s' := by
  refine inv.move self (fun q ne => others q ne ▸ .refl _) ?_ (.inl lock) (.inr ⟨nread, nwrite, writeopen⟩) ?_
    (inv.contents.same noStore noDelivery data nread nwrite)
  · rw [alike.locks, lock]
    exact inv.lock p
  · rw [alike.drained, nread, nwrite, writeopen]
    exact inv.drained p

theorem call_inv (inv : Inv tr s) (taken : s.call p x = some s') (alike : Alike x .user) (noStore : storedBy s e = [])
    (noDelivery : deliveredBy s e = []) : Inv (tr ++ [(s, e)]) s' := by
  unfold State.call at taken
  split at taken
  · rename_i code
    cases taken
    exact inv.outside (code ▸ alike) noStore noDelivery (goto_self s p x) (goto_others s p x) rfl rfl rfl rfl rfl
  · cases taken

/-- **Every step keeps the invariant.** -/
theorem step_inv (inv : Inv tr s) (taken : step s e = some s') : Inv (tr ++ [(s, e)]) s' := by
  unfold step at taken
  split_ifs at taken
  cases e with
  | write p addr n => exact call_inv inv taken ⟨rfl, fun _ _ => Iff.rfl⟩ rfl rfl
  | read p n => exact call_inv inv taken ⟨rfl, fun _ _ => Iff.rfl⟩ rfl rfl
  | close p writable => exact call_inv inv taken ⟨rfl, fun _ _ => Iff.rfl⟩ rfl rfl
  | advance p => exact advance_inv inv taken
  | kill p =>
    cases taken
    exact inv.outside (alike_rouse _) rfl rfl (goto_self s p _) (goto_others s p _) rfl rfl rfl rfl rfl
  | sigsend p =>
    cases taken
    exact inv.outside (alike_rouse _) rfl rfl (goto_self s p _) (goto_others s p _) rfl rfl rfl rfl rfl

omit [DecidableEq ι] in
theorem pipealloc_inv (data : Nat → Byte) (killed : ι → Bool) : Inv [] (pipealloc data killed) where
  lock p holds := by cases holds
  drained p := trivial
  contents := ⟨[], rfl, .nil data 0⟩

/-- **A pipe is a lossless queue.** In every run the delivered bytes are a prefix of the stored ones, the
difference of the counters is the number of unread bytes, at most `PIPESIZE`, and a `piperead` of at least one
byte returns 0 only from an empty pipe whose write end is closed. -/
theorem pipe_fifo {data : Nat → Byte} {killed : ι → Bool} (run : Run step (pipealloc data killed) tr s) :
    delivered tr <+: stored tr ∧
      (delivered tr).length + (s.nwrite - s.nread).toNat = (stored tr).length ∧
      (s.nwrite - s.nread).toNat ≤ PIPESIZE ∧
      ∀ p n, 0 < n → s.pc p = .readReturn n 0 → delivered tr = stored tr ∧ s.writeopen = false := by
  have inv : Inv tr s := run.history Inv (pipealloc_inv data killed) fun _ _ _ _ => step_inv
  obtain ⟨unread, split, holds⟩ := inv.contents
  have count := holds.length_eq PIPESIZE_lt
  refine ⟨⟨unread, split.symm⟩, ?_, ?_, ?_⟩
  · rw [count, split, List.length_append]
  · rw [count]
    exact holds.fits
  · intro p n positive code
    have known := inv.drained p
    rw [code] at known
    obtain ⟨empty, closed⟩ := known positive rfl
    refine ⟨?_, closed⟩
    rw [split, (holds.empty_iff PIPESIZE_lt).1 empty, List.append_nil]

/-- One process writes a byte and closes the write end; the other one reads twice, five bytes at a time. -/
def writeCloseRead : List (Event (Fin 2)) :=
  let writes : List (Event (Fin 2)) := [.write 0 (fun _ => 7) 1, .advance 0, .advance 0, .advance 0, .advance 0, .advance 0]
  let closes : List (Event (Fin 2)) := [.close 0 true, .advance 0, .advance 0, .advance 0]
  let reads : List (Event (Fin 2)) := [.read 1 5, .advance 1, .advance 1, .advance 1, .advance 1, .advance 1, .advance 1]
  let again : List (Event (Fin 2)) := [.read 1 5, .advance 1, .advance 1, .advance 1, .advance 1]
  [writes, closes, reads, again].flatten

/-- The second `piperead` is about to return 0: the byte has been delivered and the write end is closed. -/
theorem pipe_fifo_writeCloseRead : ∃ tr s, Run step (pipealloc (fun _ => 0) fun _ : Fin 2 => false) tr s ∧
    s.pc 1 = .readReturn 5 0 ∧ stored tr = [7] ∧ delivered tr = stored tr ∧ s.writeopen = false := by
  have final : (exec step (pipealloc (fun _ => 0) fun _ : Fin 2 => false) writeCloseRead).map
      (fun s => match s.pc 1 with
        | .readReturn n r => some (n, r)
        | _ => none) = some (some (5, 0)) := by decide +kernel
  obtain ⟨s, done, seen⟩ := Option.map_eq_some_iff.1 final
  have code : s.pc 1 = .readReturn 5 0 := by
    split at seen
    · rename_i n r code
      obtain ⟨rfl, rfl⟩ : n = 5 ∧ r = 0 := by simpa using seen
      exact code
    · cases seen
  have run := run_of_exec done
  obtain ⟨_, _, _, returns⟩ := pipe_fifo run
  obtain ⟨all, closed⟩ := returns 1 5 (by decide) code
  exact ⟨_, s, run, code, by decide +kernel, all, closed⟩

end Xv6.Pipe
