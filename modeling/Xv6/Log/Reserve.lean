import Xv6.Log.Operation

/-!
# The log reservation

`begin_op` reserves `MAXOPBLOCKS` of `LOGSIZE` blocks for an operation, but on the
`mkfs` geometry one sector of the `LOGSIZE` of the log is its header, and `log_write`
tests for the rest before it looks for an absorbed entry. So a call that comes
when `LOGSIZE - 1` blocks are logged stops the kernel, though its operation was
admitted and stays within its reservation.
-/

namespace Xv6.Log

open Xv6.Lib

variable {P : Type} [DecidableEq P] {g : Geometry} {s s' : State P} {e : Event P} {p : P}
  {tr : List (State P × Event P)} {d : Disk} {x : Sector}

/-- The sectors that `log_write` recorded since the last commit. -/
def sinceCommit (es : List (Event P)) : List Sector :=
  es.foldl (fun logged e => match e with
    | .logAppend _ x _ => x :: logged
    | .commit _ => []
    | _ => logged) []

/-- The sectors on which `p` called `log_write` since it last entered `begin_op`. -/
def opSectors (p : P) (es : List (Event P)) : List Sector :=
  es.foldl (fun called e => match e with
    | .beginOp q => if q = p then [] else called
    | .logTest q x => if q = p then x :: called else called
    | _ => called) []

/-- Every operation calls `log_write` on at most `limit` distinct blocks. -/
def Limited (limit : Nat) (es : List (Event P)) : Prop :=
  ∀ p, ∀ pre ∈ es.inits, (opSectors p pre).toFinset.card ≤ limit

omit [DecidableEq P] in
theorem sinceCommit_snoc (es : List (Event P)) (e : Event P) : sinceCommit (es ++ [e]) = match e with
    | .logAppend _ x _ => x :: sinceCommit es
    | .commit _ => []
    | _ => sinceCommit es := by
  rw [sinceCommit, List.foldl_append]
  rfl

/-- While the kernel runs, `log.lh` holds the sectors logged since the last commit. -/
theorem mem_lh_iff (run : Run (step g) (ready P d) tr s) (alive : s.stopped = none) (x : Sector) :
    x ∈ s.mem.lh.sector ↔ x ∈ sinceCommit (tr.map Prod.snd) := by
  induction run with
  | start => exact Iff.rfl
  | @next tr s s' e run taken ih =>
    obtain ⟨before, _, rfl⟩ := step_eq taken
    have same := ih before
    rw [List.map_append, List.map_singleton, sinceCommit_snoc]
    cases e with
    | beginOp q =>
      rw [← same]
      simp only [Event.apply, State.beginOp]
      split_ifs <;> rfl
    | logTest q y =>
      rw [← same]
      simp only [Event.apply, State.logTest]
      split_ifs <;> rfl
    | logAppend q y data =>
      simp only [Event.apply, State.logAppend] at alive ⊢
      split at alive
      · cases alive
      · rename_i lh absorbed
        rw [List.mem_cons, ← same, or_comm]
        exact (absorb_spec absorbed).1 x
    | endOp q =>
      rw [← same]
      simp only [Event.apply, State.endOp]
      split_ifs <;> rfl
    | commit q =>
      show x ∈ (s.mem.commit g).lh.sector ↔ _
      rw [commit_lh]
    | finish q => exact same

/-- `log.lh.n` is the number of distinct sectors logged since the last commit. -/
theorem length_lh (run : Run (step g) (ready P d) tr s) (alive : s.stopped = none) :
    s.mem.lh.sector.length = (sinceCommit (tr.map Prod.snd)).toFinset.card := by
  rw [← List.toFinset_card_of_nodup (run_inv run).nodup]
  congr 1
  ext x
  rw [List.mem_toFinset, List.mem_toFinset]
  exact mem_lh_iff run alive x

/-- Only the test of `log_write` stops the kernel over a transaction that is too big. -/
theorem tooBig_of_step (taken : step g s e = some s') (stopped : s'.stopped = some .tooBigTransaction) :
    ∃ p x, e = .logTest p x ∧
      (s.mem.lh.sector.length ≥ LOGSIZE ∨ (s.mem.lh.sector.length : Int) ≥ (g.size : Int) - 1) := by
  obtain ⟨alive, _, rfl⟩ := step_eq taken
  cases e with
  | beginOp q =>
    simp only [Event.apply, State.beginOp] at stopped
    split_ifs at stopped <;> simp [State.setPhase, alive] at stopped
  | logTest q y =>
    refine ⟨q, y, rfl, ?_⟩
    by_contra small
    simp only [Event.apply, State.logTest, small, if_false] at stopped
    split_ifs at stopped <;> simp [State.setPhase, State.stop, alive] at stopped
  | logAppend q y data =>
    simp only [Event.apply, State.logAppend] at stopped
    split at stopped <;> simp [State.setPhase, State.stop, alive] at stopped
  | endOp q =>
    simp only [Event.apply, State.endOp] at stopped
    split_ifs at stopped <;> simp [State.setPhase, State.stop, State.wakeup, alive] at stopped
  | commit q => simp [Event.apply, State.commit, State.setPhase, alive] at stopped
  | finish q => simp [Event.apply, State.finish, State.wakeup, State.setPhase, alive] at stopped

/-- **The log never overflows, exactly as long as every `log_write` is called while fewer than
`LOGSIZE - 1` distinct blocks have been logged since the last commit.** -/
theorem reservation_iff (run : Run (step mkfsLog) (ready P d) tr s) :
    (∀ t ∈ visited tr s, t.stopped ≠ some .tooBigTransaction) ↔
      ∀ pre t p x rest, tr = pre ++ (t, .logTest p x) :: rest →
        (sinceCommit (pre.map Prod.snd)).toFinset.card < LOGSIZE - 1 := by
  constructor
  · rintro calm pre t p x rest rfl
    obtain ⟨reached, u, taken, _⟩ := run.around
    obtain ⟨alive, able, same⟩ := step_eq taken
    rw [← length_lh reached alive]
    by_contra full
    apply calm u (run.visits_next (by simp) taken)
    have panics : t.mem.lh.sector.length ≥ LOGSIZE ∨
        (t.mem.lh.sector.length : Int) ≥ (mkfsLog.size : Int) - 1 := by
      have size : mkfsLog.size = LOGSIZE := rfl
      simp only [LOGSIZE, MAXOPBLOCKS] at full size ⊢
      omega
    rw [same]
    simp only [Event.apply, State.logTest, panics, if_true]
    rfl
  · intro spare t member stopped
    obtain ⟨pre, rest, rfl, reached⟩ := run.prefix_of_visited member
    -- the step that stopped the kernel was a test, and the test found room
    have fine : t.stopped ≠ some .tooBigTransaction := by
      apply reached.invariant (fun t e => ∀ p x, e = .logTest p x → t.mem.lh.sector.length < LOGSIZE - 1)
        (fun t => t.stopped ≠ some .tooBigTransaction) (by simp [ready])
      · intro t e t' _ room taken stopped
        obtain ⟨p, x, rfl, full⟩ := tooBig_of_step taken stopped
        have small := room p x rfl
        have size : mkfsLog.size = LOGSIZE := rfl
        simp only [LOGSIZE, MAXOPBLOCKS] at full size small
        omega
      · rintro ⟨t, e⟩ inside p x rfl
        obtain ⟨front, back, t', rfl, earlier, taken⟩ := reached.prefix_of_mem inside
        rw [length_lh earlier (step_eq taken).1]
        exact spare front t p x (back ++ rest) (by simp)
    exact fine stopped

/-- Three operations, all admitted by `begin_op`, log ten blocks each. -/
def threeOps : List (Event (Fin 3)) :=
  [.beginOp 0, .beginOp 1, .beginOp 2] ++ (List.range 29).flatMap (fun i =>
    [.logTest (Fin.ofNat 3 (i / 10)) (BitVec.ofNat 32 (100 + i)),
     .logAppend (Fin.ofNat 3 (i / 10)) (BitVec.ofNat 32 (100 + i)) fun _ => 0]) ++ [.logTest 2 129]

/-- The calls for the first 28 of the blocks find room. -/
theorem reservation_threeOps : ∃ tr s, Run (step mkfsLog) (ready (Fin 3) fun _ _ => 0) tr s ∧
    tr.map Prod.snd = threeOps.take 59 ∧ ∀ t ∈ visited tr s, t.stopped ≠ some .tooBigTransaction := by
  have final : (exec (step mkfsLog) (ready (Fin 3) fun _ _ => 0) (threeOps.take 59)).map State.stopped = some none := by
    decide +kernel
  have spare : ∀ pre ∈ (threeOps.take 59).inits, (sinceCommit pre).toFinset.card < LOGSIZE - 1 := by decide +kernel
  obtain ⟨s, done, -⟩ := Option.map_eq_some_iff.1 final
  refine ⟨_, s, run_of_exec done, record_events done, (reservation_iff (run_of_exec done)).2 fun pre t p x rest whole => ?_⟩
  refine spare _ ((List.mem_inits _ _).2 ?_)
  rw [← record_events done, whole, List.map_append]
  exact List.prefix_append _ _

/-- All three stay within their reservation and the last call stops the kernel. -/
theorem reservation_fails : ∃ tr s, Run (step mkfsLog) (ready (Fin 3) fun _ _ => 0) tr s ∧
    Limited MAXOPBLOCKS (tr.map Prod.snd) ∧ s.stopped = some .tooBigTransaction := by
  have final : (exec (step mkfsLog) (ready (Fin 3) fun _ _ => 0) threeOps).map State.stopped =
      some (some .tooBigTransaction) := by decide +kernel
  have limited : ∀ p : Fin 3, ∀ pre ∈ threeOps.inits, (opSectors p pre).toFinset.card ≤ MAXOPBLOCKS := by
    decide +kernel
  obtain ⟨s, done, stopped⟩ := Option.map_eq_some_iff.1 final
  refine ⟨_, s, run_of_exec done, ?_, stopped⟩
  rw [record_events done]
  exact limited

end Xv6.Log
