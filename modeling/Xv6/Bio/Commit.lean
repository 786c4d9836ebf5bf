import Xv6.Bio.Invariant

/-!
# Transactions and commits over the buffer cache

`begin_op`, `end_op`, `log_write` and `commit` of `log.c`. Processes outside a
transaction and inside one use the cache as they like; the process whose `end_op`
found the log idle runs `commit`, one call into the cache after the other. The
in-memory header `log.lh` is the list of its sectors.
-/

namespace Xv6.Bio

open Xv6.Lib

/-- The device of the root disk, `log.dev`. -/
def ROOTDEV : BitVec 32 := 1

/-- The layout of the disk, and the header block that `write_head` makes of a list of sectors. -/
structure Layout (D : Type) where
  disksize : Nat
  /-- `log.start` -/
  start : BitVec 32
  /-- `log.size` -/
  size : Nat
  header : List (BitVec 32) → D → D

/-- The lines of the loop bodies of `write_log` and `install_trans`. Both read a log block and its home
block, copy one to the other, write the target and release first the source, then the target. -/
inductive CopyLine where
  /-- the test of the loop, then the `bread` of the log block -/
  | readLog
  | readHome
  | copy (lbuf : BufPtr)
  | write (lbuf dbuf : BufPtr)
  | releaseSource (lbuf dbuf : BufPtr)
  | releaseTarget (lbuf dbuf : BufPtr)
  deriving DecidableEq, Repr

/-- The lines of `write_head`. -/
inductive HeadLine where
  | read
  | fill
  | write (buf : BufPtr)
  | release (buf : BufPtr)
  deriving DecidableEq, Repr

/-- What a process is doing outside of `bio.c`. -/
inductive Prog where
  /-- outside of any transaction -/
  | out
  /-- between `begin_op` and `end_op` -/
  | op
  /-- in `commit`: in `write_log`, or in `install_trans` -/
  | copy (install : Bool) (tail : Nat) (line : CopyLine)
  /-- in `commit`: in the first `write_head`, or in the second one after `log.lh.n = 0` -/
  | head (again : Bool) (line : HeadLine)
  /-- `commit` has returned -/
  | done
  | panic (why : Panic)
  deriving DecidableEq, Repr

/-- The process runs code of its own choice. -/
def Prog.free : Prog → Bool
  | .out | .op => true
  | _ => false

structure LogState (P D : Type) where
  bio : State P D
  /-- `log.lh` -/
  sector : List (BitVec 32)
  outstanding : Nat
  committing : Bool
  prog : P → Prog

inductive LogEvent (P D : Type) where
  /-- a step in the cache: of the process's own choice, or inside of `bio.c` -/
  | bio (e : Event P D)
  | beginOp (p : P)
  | endOp (p : P)
  | logWrite (p : P) (b : BufPtr)
  /-- the next line of `commit` -/
  | commit (p : P)

/-- A call from outside of `bio.c`. -/
def Event.calls {P D : Type} : Event P D → Bool
  | .bread _ _ _ | .store _ _ _ | .bwrite _ _ | .brelse _ _ => true
  | .advance _ | .kill _ | .pin _ _ => false

section
variable {P D : Type} [DecidableEq P]

/-- What a step does: a step in the cache, if any, and the new state but for the cache. -/
abbrev Plan (P D : Type) := Option (Event P D) × LogState P D

namespace LogState

def setProg (s : LogState P D) (p : P) (x : Prog) : LogState P D := { s with prog := Function.update s.prog p x }

/-- The buffer that the last `bread` of `p` returned. -/
def got (s : LogState P D) (p : P) : Option BufPtr := (s.bio.held p).head?

/-- The step in the cache that a process takes: inside of `bio.c` it goes on; outside it calls what it likes,
unless it is in `commit`. `B_DIRTY` is set by `log_write` only. -/
def allows (s : LogState P D) : Event P D → Bool
  | .advance _ | .kill _ => true
  | .pin _ _ => false
  | e => (s.prog e.proc).free

end LogState

/-- The block that the copy reads, and the one that it writes. -/
def CopyLine.source (install : Bool) (lbuf dbuf : BufPtr) : BufPtr := if install then lbuf else dbuf

def CopyLine.target (install : Bool) (lbuf dbuf : BufPtr) : BufPtr := if install then dbuf else lbuf

open CopyLine in
/-- The body of the loops of `write_log` and `install_trans`; after the loop of the latter `log.lh.n = 0`. -/
def copyStep (cfg : Layout D) (s : LogState P D) (p : P) (install : Bool) (tail : Nat) : CopyLine → Option (Plan P D)
  | .readLog =>
    if tail < s.sector.length then
      some (some (.bread p ROOTDEV (cfg.start + BitVec.ofNat 32 tail + 1)), s.setProg p (.copy install tail .readHome))
    else if install then some (none, { s with sector := [] }.setProg p (.head true .read))
    else some (none, s.setProg p (.head false .read))
  | .readHome => (s.got p).map fun lbuf =>
    (some (.bread p ROOTDEV (s.sector.getD tail 0)), s.setProg p (.copy install tail (.copy lbuf)))
  | .copy lbuf => (s.got p).map fun dbuf =>
    (some (.store p (target install lbuf dbuf) (s.bio.cache.buf (source install lbuf dbuf)).data),
      s.setProg p (.copy install tail (.write lbuf dbuf)))
  | .write lbuf dbuf =>
    some (some (.bwrite p (target install lbuf dbuf)), s.setProg p (.copy install tail (.releaseSource lbuf dbuf)))
  | .releaseSource lbuf dbuf =>
    some (some (.brelse p (source install lbuf dbuf)), s.setProg p (.copy install tail (.releaseTarget lbuf dbuf)))
  | .releaseTarget lbuf dbuf =>
    some (some (.brelse p (target install lbuf dbuf)), s.setProg p (.copy install (tail + 1) .readLog))

/-- `write_head`. -/
def headStep (cfg : Layout D) (s : LogState P D) (p : P) (again : Bool) : HeadLine → Option (Plan P D)
  | .read => some (some (.bread p ROOTDEV cfg.start), s.setProg p (.head again .fill))
  | .fill => (s.got p).map fun buf =>
    (some (.store p buf (cfg.header s.sector (s.bio.cache.buf buf).data)), s.setProg p (.head again (.write buf)))
  | .write buf => some (some (.bwrite p buf), s.setProg p (.head again (.release buf)))
  | .release buf => some (some (.brelse p buf), s.setProg p (if again then .done else .copy true 0 .readLog))

/-- The next line of `commit`, and the end of `end_op` after it. -/
def commitStep (cfg : Layout D) (s : LogState P D) (p : P) : Option (Plan P D) :=
  if s.bio.call p = .idle then
    match s.prog p with
    | .out | .op | .panic _ => none
    | .copy install tail line => copyStep cfg s p install tail line
    | .head again line => headStep cfg s p again line
    | .done => some (none, { s with committing := false }.setProg p .out)
  else none

/-- `begin_op`, when it does not have to wait. -/
def beginOp (s : LogState P D) (p : P) : Option (Plan P D) :=
  if s.bio.call p = .idle ∧ s.prog p = .out ∧ s.committing = false ∧
      s.sector.length + (s.outstanding + 1) * MAXOPBLOCKS ≤ LOGSIZE then
    some (none, { s with outstanding := s.outstanding + 1 }.setProg p .op)
  else none

/-- `end_op`, up to the call of `commit`. -/
def endOp (s : LogState P D) (p : P) : Option (Plan P D) :=
  if s.bio.call p = .idle ∧ s.prog p = .op then
    let s := { s with outstanding := s.outstanding - 1 }
    if s.committing then some (none, s.setProg p (.panic .committing))
    else if s.outstanding = 0 then
      let commit := if s.sector.length > 0 then Prog.copy false 0 .readLog else .done
      some (none, { s with committing := true }.setProg p commit)
    else some (none, s.setProg p .out)
  else none

/-- `log_write`. -/
def logWrite (cfg : Layout D) (s : LogState P D) (p : P) (b : BufPtr) : Option (Plan P D) :=
  if s.bio.call p = .idle ∧ b ∈ s.bio.held p ∧ (s.prog p).free then
    if s.sector.length ≥ LOGSIZE ∨ s.sector.length ≥ cfg.size - 1 then some (none, s.setProg p (.panic .tooBig))
    else if s.outstanding < 1 then some (none, s.setProg p (.panic .outside))
    else
      -- the loop stops at an equal sector, or at the end of the list
      let sector := (s.bio.cache.buf b).sector
      some (some (.pin p b), { s with sector := if sector ∈ s.sector then s.sector else s.sector ++ [sector] })
  else none

def plan (cfg : Layout D) (s : LogState P D) : LogEvent P D → Option (Plan P D)
  | .bio e => if s.allows e then some (some e, s) else none
  | .beginOp p => beginOp s p
  | .endOp p => endOp s p
  | .logWrite p b => logWrite cfg s p b
  | .commit p => commitStep cfg s p

def logStep (cfg : Layout D) (s : LogState P D) (e : LogEvent P D) : Option (LogState P D) :=
  match plan cfg s e with
  | none => none
  | some (none, s') => some s'
  | some (some e, s') => (step cfg.disksize s.bio e).map fun bio => { s' with bio := bio }

/-- After `binit` and `initlog`, with an empty log. -/
def logInit (zero : D) (disk : BitVec 32 → D) : LogState P D := ⟨init zero disk, [], 0, false, fun _ => .out⟩

/-! ## The steps of the cache below -/

/-- The step in the cache that a step takes, if it takes one. -/
def LogState.below (cfg : Layout D) (s : LogState P D) (e : LogEvent P D) : Option (Event P D) :=
  (plan cfg s e).bind Prod.fst

variable {cfg : Layout D} {s s' : LogState P D} {e : LogEvent P D}

/-! ## What the plans can be -/

open CopyLine in
/-- The lines of `commit`: where the process is, the call that it makes, and the state but for the cache after it. -/
inductive Line (cfg : Layout D) (t : LogState P D) (p : P) : Prog → Option (Event P D) → LogState P D → Prop
  | readLog {install : Bool} {tail : Nat} (inside : tail < t.sector.length) : Line cfg t p (.copy install tail .readLog)
    (some (.bread p ROOTDEV (cfg.start + BitVec.ofNat 32 tail + 1))) (t.setProg p (.copy install tail .readHome))
  | written {tail : Nat} (ended : t.sector.length ≤ tail) :
    Line cfg t p (.copy false tail .readLog) none (t.setProg p (.head false .read))
  | installed {tail : Nat} (ended : t.sector.length ≤ tail) :
    Line cfg t p (.copy true tail .readLog) none ({ t with sector := [] }.setProg p (.head true .read))
  | readHome {install : Bool} {tail : Nat} {lbuf : BufPtr} (got : t.got p = some lbuf) : Line cfg t p (.copy install tail .readHome)
    (some (.bread p ROOTDEV (t.sector.getD tail 0))) (t.setProg p (.copy install tail (.copy lbuf)))
  | copy {install : Bool} {tail : Nat} {lbuf dbuf : BufPtr} (got : t.got p = some dbuf) :
    Line cfg t p (.copy install tail (.copy lbuf))
      (some (.store p (target install lbuf dbuf) (t.bio.cache.buf (source install lbuf dbuf)).data))
      (t.setProg p (.copy install tail (.write lbuf dbuf)))
  | write {install : Bool} {tail : Nat} {lbuf dbuf : BufPtr} : Line cfg t p (.copy install tail (.write lbuf dbuf))
    (some (.bwrite p (target install lbuf dbuf))) (t.setProg p (.copy install tail (.releaseSource lbuf dbuf)))
  | releaseSource {install : Bool} {tail : Nat} {lbuf dbuf : BufPtr} :
    Line cfg t p (.copy install tail (.releaseSource lbuf dbuf)) (some (.brelse p (source install lbuf dbuf)))
      (t.setProg p (.copy install tail (.releaseTarget lbuf dbuf)))
  | releaseTarget {install : Bool} {tail : Nat} {lbuf dbuf : BufPtr} :
    Line cfg t p (.copy install tail (.releaseTarget lbuf dbuf)) (some (.brelse p (target install lbuf dbuf)))
      (t.setProg p (.copy install (tail + 1) .readLog))
  | readHead {again : Bool} :
    Line cfg t p (.head again .read) (some (.bread p ROOTDEV cfg.start)) (t.setProg p (.head again .fill))
  | fillHead {again : Bool} {buf : BufPtr} (got : t.got p = some buf) : Line cfg t p (.head again .fill)
    (some (.store p buf (cfg.header t.sector (t.bio.cache.buf buf).data))) (t.setProg p (.head again (.write buf)))
  | writeHead {again : Bool} {buf : BufPtr} :
    Line cfg t p (.head again (.write buf)) (some (.bwrite p buf)) (t.setProg p (.head again (.release buf)))
  | releaseHead {again : Bool} {buf : BufPtr} : Line cfg t p (.head again (.release buf)) (some (.brelse p buf))
    (t.setProg p (if again then .done else .copy true 0 .readLog))
  | done : Line cfg t p .done none ({ t with committing := false }.setProg p .out)

/-- What a step plans. -/
inductive Planned (cfg : Layout D) (t : LogState P D) : LogEvent P D → Option (Event P D) → LogState P D → Prop
  | bio {e : Event P D} (allowed : t.allows e = true) : Planned cfg t (.bio e) (some e) t
  | begins {p : P} (outside : t.prog p = .out) (quiet : t.committing = false) :
    Planned cfg t (.beginOp p) none ({ t with outstanding := t.outstanding + 1 }.setProg p .op)
  | refused {p : P} (inOp : t.prog p = .op) (committing : t.committing = true) :
    Planned cfg t (.endOp p) none ({ t with outstanding := t.outstanding - 1 }.setProg p (.panic .committing))
  | starts {p : P} {x : Prog} (inOp : t.prog p = .op) (quiet : t.committing = false) (last : t.outstanding - 1 = 0)
    (first : x = .copy false 0 .readLog ∨ x = .done) :
    Planned cfg t (.endOp p) none ({ t with outstanding := t.outstanding - 1, committing := true }.setProg p x)
  | ends {p : P} (inOp : t.prog p = .op) :
    Planned cfg t (.endOp p) none ({ t with outstanding := t.outstanding - 1 }.setProg p .out)
  | panics {p : P} {b : BufPtr} {why : Panic} (free : (t.prog p).free = true) :
    Planned cfg t (.logWrite p b) none (t.setProg p (.panic why))
  | logs {p : P} {b : BufPtr} (idle : t.bio.call p = .idle) (owned : b ∈ t.bio.held p)
    (fits : t.sector.length < LOGSIZE ∧ t.sector.length < cfg.size - 1) (inside : 1 ≤ t.outstanding)
    {sector : List (BitVec 32)} (absorbed : (t.bio.cache.buf b).sector ∈ t.sector ∧ sector = t.sector ∨
      (t.bio.cache.buf b).sector ∉ t.sector ∧ sector = t.sector ++ [(t.bio.cache.buf b).sector]) :
    Planned cfg t (.logWrite p b) (some (.pin p b)) { t with sector := sector }
  | commit {p : P} {x : Prog} {call : Option (Event P D)} {u : LogState P D} (idle : t.bio.call p = .idle)
    (at_ : t.prog p = x) (line : Line cfg t p x call u) : Planned cfg t (.commit p) call u

variable {call : Option (Event P D)} {u : LogState P D}

theorem commit_line {p : P} (planned : commitStep cfg s p = some (call, u)) :
    s.bio.call p = .idle ∧ ∃ x, s.prog p = x ∧ Line cfg s p x call u := by
  unfold commitStep at planned
  split_ifs at planned with idle
  refine ⟨idle, _, rfl, ?_⟩
  split at planned
  · cases planned
  · cases planned
  · cases planned
  · rename_i install tail line at_
    rw [at_]
    cases line with
    | readLog =>
      simp only [copyStep] at planned
      split_ifs at planned with inside installing <;> cases planned
      · exact .readLog inside
      · subst installing
        exact .installed (not_lt.1 inside)
      · rw [Bool.not_eq_true] at installing
        subst installing
        exact .written (not_lt.1 inside)
    | readHome =>
      obtain ⟨_, got, made⟩ := Option.map_eq_some_iff.1 planned
      cases made
      exact .readHome got
    | copy _ =>
      obtain ⟨_, got, made⟩ := Option.map_eq_some_iff.1 planned
      cases made
      exact .copy got
    | write | releaseSource | releaseTarget =>
      cases planned
      constructor
  · rename_i again line at_
    rw [at_]
    cases line with
    | fill =>
      obtain ⟨_, got, made⟩ := Option.map_eq_some_iff.1 planned
      cases made
      exact .fillHead got
    | read | write | release =>
      cases planned
      constructor
  · rename_i at_
    rw [at_]
    cases planned
    exact .done

theorem plan_cases (planned : plan cfg s e = some (call, u)) : Planned cfg s e call u := by
  cases e with
  | bio e =>
    simp only [plan] at planned
    split_ifs at planned with allowed
    cases planned
    exact .bio allowed
  | beginOp p =>
    simp only [plan, beginOp] at planned
    split_ifs at planned with may
    cases planned
    exact .begins may.2.1 may.2.2.1
  | endOp p =>
    simp only [plan, endOp] at planned
    split_ifs at planned with may committing last <;> cases planned
    · exact .refused may.2 committing
    · exact .starts may.2 (by simpa using committing) last (.inl rfl)
    · exact .starts may.2 (by simpa using committing) last (.inr rfl)
    · exact .ends may.2
  | logWrite p b =>
    simp only [plan, logWrite] at planned
    split_ifs at planned with may tooBig outside known <;> cases planned
    · exact .panics may.2.2
    · exact .panics may.2.2
    · exact .logs may.1 may.2.1 (by omega) (by omega) (.inl ⟨known, rfl⟩)
    · exact .logs may.1 may.2.1 (by omega) (by omega) (.inr ⟨known, rfl⟩)
  | commit p =>
    obtain ⟨idle, x, at_, line⟩ := commit_line planned
    exact .commit idle at_ line

/-- Without a step in the cache the cache stays as it is. -/
theorem plan_bio (planned : plan cfg s e = some (call, u)) : u.bio = s.bio := by
  cases plan_cases planned with
  | commit _ _ line => cases line <;> rfl
  | _ => rfl

/-- The process goes on inside of `bio.c` by itself; `log_write` pins, and `commit` only makes calls. -/
theorem plan_call {f : Event P D} (planned : plan cfg s e = some (some f, u)) :
    e = .bio f ∨ (∃ p b, e = .logWrite p b ∧ f = .pin p b) ∨ (∃ p, e = .commit p) ∧ f.calls = true := by
  cases plan_cases planned with
  | bio => exact .inl rfl
  | logs => exact .inr (.inl ⟨_, _, rfl, rfl⟩)
  | commit _ _ line => exact .inr (.inr ⟨⟨_, rfl⟩, by cases line <;> rfl⟩)

theorem below_advance {p : P} (below : s.below cfg e = some (.advance p)) : e = .bio (.advance p) := by
  obtain ⟨⟨call, t⟩, planned, same⟩ := Option.bind_eq_some_iff.1 below
  cases same
  rcases plan_call planned with same | ⟨_, _, _, pins⟩ | ⟨_, calls⟩
  · exact same
  · cases pins
  · cases calls

/-- A step inside of `bio.c` changes the cache only. -/
theorem logStep_advance (cfg : Layout D) (s : LogState P D) (p : P) :
    logStep cfg s (.bio (.advance p)) = (step cfg.disksize s.bio (.advance p)).map fun bio => { s with bio := bio } := by
  simp [logStep, plan, LogState.allows]

/-- A step takes the step in the cache that it plans, or none. -/
theorem logStep_below (taken : logStep cfg s e = some s') :
    (s.below cfg e = none ∧ s'.bio = s.bio) ∨ ∃ f, s.below cfg e = some f ∧ step cfg.disksize s.bio f = some s'.bio := by
  unfold logStep at taken
  split at taken
  · cases taken
  · rename_i t planned
    cases taken
    exact .inl ⟨by simp [LogState.below, planned], plan_bio planned⟩
  · rename_i f t planned
    obtain ⟨bio, stepped, rfl⟩ := Option.map_eq_some_iff.1 taken
    exact .inr ⟨f, by simp [LogState.below, planned], stepped⟩

/-- The cache below keeps its invariant. -/
theorem run_bio_inv {zero : D} {disk : BitVec 32 → D} {tr : List (LogState P D × LogEvent P D)}
    (run : Run (logStep cfg) (logInit zero disk) tr s) : ∃ l, Inv s.bio l := by
  refine run.invariant_all (fun s => ∃ l, Inv s.bio l) ⟨_, init_inv zero disk⟩ ?_
  rintro s e s' ⟨l, inv⟩ taken
  rcases logStep_below taken with ⟨_, same⟩ | ⟨f, _, stepped⟩
  · exact ⟨l, same.symm ▸ inv⟩
  · exact step_inv inv stepped

end

end Xv6.Bio
