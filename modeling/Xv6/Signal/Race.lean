import Xv6.Signal.Delivery

/-!
# Sends that fall between the load and the store

`sigsend` updates `pending` under `ptable.lock`; `handleSignals` loads the word and
writes it back without it. A signal that is sent in between survives the store only
if the word that was loaded had its bit already and delivery is not for it.
-/

namespace Xv6.Signal

open Xv6.Lib

/-- A process, and what its `handleSignals` has read of `pending` and not yet written back. -/
structure Racer where
  proc : Proc
  loaded : Option (BitVec 32)

inductive RaceEvent where
  /-- another process sends a signal -/
  | sigsend (signum : Int)
  /-- `handleSignals` reads `pending`, on the return from a system call with this frame -/
  | load (frame : Trapframe)
  /-- `handleSignals` delivers and writes the word back -/
  | store (kalloc : Bool)
  | sigreturn
  deriving DecidableEq

/-- The rest of `handleSignals` after `pending` was read as `v`. -/
def Proc.deliver (kalloc : Bool) (v : BitVec 32) (p : Proc) : Proc :=
  let signum := (getLowestSetBit v).toNat
  let handler := p.signal_handlers signum
  let p := { p with pending := v &&& ~~~ ((1 : BitVec 32) <<< signum), insignal := 1 }
  let p := p.saveFrame kalloc
  { p with
    mem := applyWrites p.mem (p.stackStores signum)
    tf := { p.tf with esp := p.tf.esp - 8, eip := handler } }

def raceStep (s : Racer) : RaceEvent → Option Racer
  | .sigsend signum => some { s with proc := s.proc.sigsend signum }
  | .load frame =>
    if s.loaded = none ∧ frame.trapno = T_SYSCALL then
      let p := { s.proc with tf := frame }
      some ⟨p, if p.Delivers then some p.pending else none⟩
    else none
  | .store kalloc => s.loaded.map fun v => ⟨s.proc.deliver kalloc v, none⟩
  | .sigreturn => if s.loaded = none then some { s with proc := s.proc.sysSigreturn } else none

/-- Signal `n` has been sent since the last load. -/
def SentSinceLoad (tr : List (Racer × RaceEvent)) (n : Nat) : Prop :=
  n ≤ 30 ∧ Since (fun q => q.2 = .sigsend n) (fun q => ∃ frame, q.2 = .load frame) tr

/-- Whenever a step of the run clears the bit of a signal, the step delivers this signal and the signal has not
been sent since the load with which the delivery started. -/
def Lossless (tr : List (Racer × RaceEvent)) : Prop :=
  ∀ pre s e post s', tr = pre ++ (s, e) :: post → raceStep s e = some s' →
    ∀ n, s.proc.pending.getLsbD n = true → s'.proc.pending.getLsbD n = false →
      (∃ kalloc, e = .store kalloc) ∧ (∃ v, s.loaded = some v ∧ getLowestSetBit v = n) ∧ ¬ SentSinceLoad pre n

section
variable {s s' s0 : Racer} {tr : List (Racer × RaceEvent)} {n : Nat} {v : BitVec 32}

theorem sentSinceLoad_concat {q : Racer × RaceEvent} : SentSinceLoad (tr ++ [q]) n ↔
    n ≤ 30 ∧ q.2 = .sigsend n ∨ SentSinceLoad tr n ∧ ¬ ∃ frame, q.2 = .load frame := by
  rw [SentSinceLoad, since_concat, SentSinceLoad]
  tauto

theorem sigsend_bit (p : Proc) (signum : Int) :
    (p.sigsend signum).pending.getLsbD n = true ↔ p.pending.getLsbD n = true ∨ n ≤ 30 ∧ signum = n := by
  unfold Proc.sigsend
  split_ifs with outside
  · have other : ¬ (n ≤ 30 ∧ signum = n) := by omega
    rw [or_iff_left other]
  · dsimp only
    rw [getLsbD_setBit _ (by omega)]
    have is : n = signum.toNat ↔ n ≤ 30 ∧ signum = n := by omega
    rw [is]

theorem deliver_pending (p : Proc) (kalloc : Bool) :
    (p.deliver kalloc v).pending = v &&& ~~~ ((1 : BitVec 32) <<< (getLowestSetBit v).toNat) := by
  unfold Proc.deliver Proc.saveFrame
  cases p.backuptf <;> cases kalloc <;> rfl

/-- A load changes no signal, and what it leaves to deliver is a word that is not 0. -/
theorem load_cases {frame : Trapframe} (taken : raceStep s (.load frame) = some s') :
    s'.proc.pending = s.proc.pending ∧ ∀ v, s'.loaded = some v → v = s.proc.pending ∧ v ≠ 0 := by
  unfold raceStep at taken
  dsimp only at taken
  split at taken
  · cases taken
    refine ⟨rfl, fun v isSome => ?_⟩
    dsimp only at isSome
    split at isSome
    · rename_i delivers
      cases isSome
      refine ⟨rfl, fun zero => ?_⟩
      have pos : 0 < s.proc.pending.toInt := delivers.2.1
      rw [zero] at pos
      simp at pos
    · cases isSome
  · cases taken

/-- While a delivery is under way, `pending` is the word that was loaded and what was sent since. -/
def Tracked (tr : List (Racer × RaceEvent)) (s : Racer) : Prop :=
  ∀ v, s.loaded = some v → v ≠ 0 ∧ ∀ n, s.proc.pending.getLsbD n = true ↔ v.getLsbD n = true ∨ SentSinceLoad tr n

theorem run_tracked (run : Run raceStep s0 tr s) (start : s0.loaded = none) : Tracked tr s := by
  refine run.history Tracked (fun v isSome => by rw [start] at isSome; cases isSome) ?_
  intro tr s e s' tracked taken v isSome
  cases e with
  | sigsend signum =>
    cases taken
    obtain ⟨nonzero, bits⟩ := tracked v isSome
    refine ⟨nonzero, fun n => ?_⟩
    have now : SentSinceLoad (tr ++ [(s, .sigsend signum)]) n ↔ n ≤ 30 ∧ signum = n ∨ SentSinceLoad tr n := by
      rw [sentSinceLoad_concat]
      simp
    rw [sigsend_bit, bits, now]
    tauto
  | load frame =>
    obtain ⟨pending, read⟩ := load_cases taken
    obtain ⟨rfl, nonzero⟩ := read v isSome
    refine ⟨nonzero, fun n => ?_⟩
    rw [pending, sentSinceLoad_concat]
    simp
  | store kalloc =>
    obtain ⟨w, _, rfl⟩ := Option.map_eq_some_iff.1 taken
    cases isSome
  | sigreturn =>
    simp only [raceStep] at taken
    split_ifs at taken with idle
    cases taken
    rw [show s.loaded = none from idle] at isSome
    cases isSome

/-- The bits that the store leaves. -/
theorem store_bit (nonzero : v ≠ 0) (p : Proc) (kalloc : Bool) :
    (p.deliver kalloc v).pending.getLsbD n = true ↔ v.getLsbD n = true ∧ getLowestSetBit v ≠ n := by
  obtain ⟨k, lowest, inside, _, _⟩ := getLowestSetBit_spec nonzero
  rw [deliver_pending, lowest, Int.toNat_natCast, getLsbD_clearBit inside]
  have is : n ≠ k ↔ (k : Int) ≠ n := by omega
  rw [is]

/-- **No signal is lost** in a run exactly if, at every store, what was sent since the load was already in the
word that was loaded and is not the signal being delivered. -/
theorem lossless_iff (run : Run raceStep s0 tr s) (start : s0.loaded = none) :
    Lossless tr ↔ ∀ pre t kalloc post v, tr = pre ++ (t, .store kalloc) :: post → t.loaded = some v →
      ∀ n, SentSinceLoad pre n → v.getLsbD n = true ∧ getLowestSetBit v ≠ n := by
  constructor
  · intro lossless pre t kalloc post v split isSome n sent
    subst split
    obtain ⟨before, t', taken, _⟩ := run.around
    obtain ⟨nonzero, bits⟩ := run_tracked before start v isSome
    have set := (bits n).2 (.inr sent)
    by_contra lost
    have gone : t'.proc.pending.getLsbD n = false := by
      simp only [raceStep, isSome, Option.map_some, Option.some.injEq] at taken
      subst taken
      simpa using mt (store_bit nonzero t.proc kalloc).1 lost
    exact (lossless pre t _ post t' rfl taken n set gone).2.2 sent
  · intro clean pre t e post t' split taken n set gone
    subst split
    have before := run.around.1
    cases e with
    | sigsend signum =>
      cases taken
      have kept := (sigsend_bit t.proc signum).2 (.inl set)
      rw [gone] at kept
      cases kept
    | load frame =>
      rw [(load_cases taken).1, set] at gone
      cases gone
    | sigreturn =>
      simp only [raceStep] at taken
      split_ifs at taken
      cases taken
      rw [show t.proc.sysSigreturn.pending = t.proc.pending from rfl, set] at gone
      cases gone
    | store kalloc =>
      obtain ⟨v, isSome, rfl⟩ := Option.map_eq_some_iff.1 taken
      obtain ⟨nonzero, bits⟩ := run_tracked before start v isSome
      have lost : ¬ (v.getLsbD n = true ∧ getLowestSetBit v ≠ n) := by
        rw [← store_bit nonzero t.proc kalloc, gone]
        decide
      have notSent : ¬ SentSinceLoad pre n := fun sent => lost (clean pre t kalloc post v rfl isSome n sent)
      have inside : v.getLsbD n = true := ((bits n).1 set).resolve_right notSent
      refine ⟨⟨kalloc, rfl⟩, ⟨v, isSome, ?_⟩, notSent⟩
      by_contra other
      exact lost ⟨inside, other⟩

end

/-- The load sees signals 0 and 3, signal 3 is sent again, and signal 0 is delivered. -/
def sendAgain : List RaceEvent := [.sigsend 0, .sigsend 3, .load syscallFrame, .sigsend 3, .store true]

/-- Signal 3 is still pending: no signal is lost. -/
theorem lossless_sendAgain : ∃ s, Run raceStep ⟨Proc.zero, none⟩ (record raceStep ⟨Proc.zero, none⟩ sendAgain) s ∧
    s.proc.pending = 8 ∧ Lossless (record raceStep ⟨Proc.zero, none⟩ sendAgain) := by
  have final : (exec raceStep ⟨Proc.zero, none⟩ sendAgain).map (fun s => s.proc.pending) = some 8 := by decide +kernel
  obtain ⟨s, done, pending⟩ := Option.map_eq_some_iff.1 final
  have run := run_of_exec done
  refine ⟨s, run, pending, (lossless_iff run rfl).2 ?_⟩
  intro pre t kalloc post v split isSome n sent
  -- the only store of the run comes last
  have events := congrArg (List.map Prod.snd) split
  rw [record_events done, List.map_append, List.map_cons] at events
  have before : pre.map Prod.snd = [.sigsend 0, .sigsend 3, .load syscallFrame] ++ [.sigsend 3] := by
    simp only [sendAgain, List.cons_eq_append_iff] at events
    simp at events
    exact events.1
  have word : (exec raceStep ⟨Proc.zero, none⟩ ([.sigsend 0, .sigsend 3, .load syscallFrame] ++ [.sigsend 3])).bind
      Racer.loaded = some 9 := by decide +kernel
  rw [split] at run
  rw [← before, run.around.1.exec_eq, Option.bind_some, isSome] at word
  cases word
  have three : n = 3 := by
    have sinceLoad : Since (· = .sigsend n) (fun e => ∃ frame, e = .load frame) (pre.map Prod.snd) := since_map.2 sent.2
    rw [before, since_concat] at sinceLoad
    rcases sinceLoad with now | ⟨earlier, _⟩
    · simp only [RaceEvent.sigsend.injEq] at now
      omega
    · rw [show [RaceEvent.sigsend 0, .sigsend 3, .load syscallFrame] = [.sigsend 0, .sigsend 3] ++ [.load syscallFrame]
        from rfl, since_concat] at earlier
      simp at earlier
  subst three
  decide

/-- The load sees signal 0 only and signal 1 is sent before the store. -/
def sendBetween : List RaceEvent := [.sigsend 0, .load syscallFrame, .sigsend 1]

/-- Signal 1 is lost: its bit is gone, and nothing was delivered for it. -/
theorem signal_lost_between : ∃ tr s, Run raceStep ⟨Proc.zero, none⟩ tr s ∧
    tr.map Prod.snd = sendBetween ++ [.store true] ∧ s.proc.pending = 0 ∧ ¬ Lossless tr := by
  have reached : (exec raceStep ⟨Proc.zero, none⟩ sendBetween).map (fun s => (s.proc.pending, s.loaded)) =
      some (3, some 1) := by decide +kernel
  obtain ⟨t, done, fields⟩ := Option.map_eq_some_iff.1 reached
  obtain ⟨pending, loaded⟩ := Prod.mk.inj fields
  have taken : raceStep t (.store true) = some ⟨t.proc.deliver true 1, none⟩ := by simp only [raceStep, loaded, Option.map_some]
  have empty : (t.proc.deliver true 1).pending = 0 := by
    rw [deliver_pending]
    decide
  refine ⟨_, _, (run_of_exec done).next taken, ?_, empty, ?_⟩
  · rw [List.map_append, record_events done, List.map_singleton]
  · intro lossless
    have set : t.proc.pending.getLsbD 1 = true := by
      rw [pending]
      decide
    obtain ⟨_, ⟨v, isSome, lowest⟩, _⟩ := lossless _ t _ [] _ rfl taken 1 set (by rw [empty]; decide)
    cases loaded.symm.trans isSome
    revert lowest
    decide

end Xv6.Signal
