import Xv6.Bio.Discipline

/-!
# The buffers that the log pins

A dirty buffer holds a block of `log.lh` that `install_trans` has not written yet, unless its process is inside
of `bwrite` with it or has panicked: `log_write` enters the block when it sets `B_DIRTY`, and by the time that
`commit` clears `log.lh` each of its blocks has been written home. None of this asks the processes for the
discipline of logging what they modify.
-/

namespace Xv6.Bio

open Xv6.Lib

variable {P D : Type} [DecidableEq P] {disksize : Nat} {s s' : State P D} {l : List BufPtr} {e : Event P D} {p q : P}
  {b : BufPtr} {logged : Block → Prop}

/-! ## A step in the cache -/

/-- The dirty buffers hold blocks that are logged; the buffers in the hands of a process hold blocks of the disk. -/
structure Pinned (logged : Block → Prop) (s : State P D) : Prop where
  valid : ∀ b, s.valid b = true → (s.cache.buf b).dev = ROOTDEV
  held : ∀ q, ∀ b ∈ s.held q,
    (s.cache.buf b).dev = ROOTDEV ∨ (∃ dev sector, s.call q = .bread dev sector b) ∨ s.Panicked q
  dirty : ∀ b, s.dirty b = true → logged (s.key b) ∨ ∃ q, b ∈ s.held q ∧ (s.call q = .bwrite b ∨ s.Panicked q)

/-- **A step keeps what is known of the dirty buffers**, if what it pins is logged. -/
theorem step_pinned (inv : Inv s l) (pinned : Pinned logged s)
    (log : ∀ b, e = .pin e.proc b → b ∈ s.held e.proc → logged (s.key b)) (taken : step disksize s e = some s') :
    Pinned logged s' := by
  have effect := step_effect inv taken
  have frame {q : P} (other : e.proc ≠ q) : Frame q s (fun _ => false) s' _ := step_frame inv taken other
  have device {q : P} {b : BufPtr} (owned : b ∈ s.held q) : (s'.cache.buf b).dev = (s.cache.buf b).dev :=
    congrArg Prod.fst (step_key inv taken b (.inl ((inv.busy b).2 ⟨q, owned⟩)))
  have kept {b : BufPtr} (owned : b ∈ s.held e.proc) (staying : s.call e.proc ≠ .brelse b) : b ∈ s'.held e.proc :=
    (effect.kept b owned).resolve_right staying
  refine ⟨?_, ?_, ?_⟩
  · intro b valid
    rcases effect.valid b valid with ⟨old, key⟩ | disk
    · exact (congrArg Prod.fst key).trans (pinned.valid b old)
    · exact disk
  · intro q b member
    by_cases own : e.proc = q
    · subst own
      rcases effect.held b member with old | reads
      · rw [device old]
        rcases pinned.held _ b old with disk | ⟨dev, sector, reads⟩ | panicked
        · exact .inl disk
        · rcases effect.read dev sector b reads with panicked | valid | disk
          · exact .inr (.inr panicked)
          · exact .inl (pinned.valid b valid)
          · exact .inl disk
        · exact absurd panicked (step_calm taken)
      · exact .inr (.inl reads)
    · rw [(frame own).held] at member
      rw [device member]
      rcases pinned.held q b member with disk | ⟨dev, sector, reads⟩ | ⟨why, panicked⟩
      · exact .inl disk
      · exact .inr (.inl ⟨dev, sector, (frame own).stuck reads (by simp)⟩)
      · exact .inr (.inr ⟨why, (frame own).stuck panicked (by simp)⟩)
  · intro b dirty
    rcases effect.dirty b dirty with ⟨old, written⟩ | ⟨owned, set | ⟨set, writes⟩⟩
    · rw [step_key inv taken b (.inr old)]
      refine (pinned.dirty b old).imp_right ?_
      rintro ⟨q, owned, at_⟩
      by_cases own : e.proc = q
      · subst own
        rcases at_ with writes | panicked
        · exact ⟨_, kept owned (by simp [writes]), .inr (written writes)⟩
        · exact absurd panicked (step_calm taken)
      · refine ⟨q, by rw [(frame own).held]; exact owned, ?_⟩
        rcases at_ with writes | ⟨why, panicked⟩
        · exact .inl ((frame own).stuck writes (by simp))
        · exact .inr ⟨why, (frame own).stuck panicked (by simp)⟩
    · rw [step_key inv taken b (.inl ((inv.busy b).2 ⟨_, owned⟩))]
      exact .inl (log b set owned)
    · have staying : s.call e.proc ≠ .brelse b := by
        intro releasing
        rw [set] at taken
        simp [step, releasing] at taken
      exact .inr ⟨_, kept owned staying, .inl writes⟩

/-! ## The blocks of `log.lh` -/

variable {cfg : Layout D} {t t' u : LogState P D} {ev : LogEvent P D} {call : Option (Event P D)}
  {sector : List (BitVec 32)} {x : Prog}

omit [DecidableEq P] in
/-- The block is in `log.lh`, and `install_trans` is not past it. -/
def LogState.Logged (t : LogState P D) (block : Block) : Prop :=
  block.1 = ROOTDEV ∧ ∃ i, t.sector[i]? = some block.2 ∧ ∀ p tail line, t.prog p = .copy true tail line → tail ≤ i

omit [DecidableEq P] in
theorem Pinned.mono {logged' : Block → Prop} (pinned : Pinned logged s)
    (still : ∀ b, s.dirty b = true → logged (s.key b) → logged' (s.key b)) : Pinned logged' s :=
  ⟨pinned.valid, pinned.held, fun b dirty => (pinned.dirty b dirty).imp_left (still b dirty)⟩

/-- `log.lh` keeps what it has, and the process is not further in `install_trans` than before. -/
theorem Pinned.setProg (pinned : Pinned t.Logged t.bio) {v : LogState P D} (progs : v.prog = t.prog)
    (sectors : v.sector = t.sector)
    (same : ∀ tail line, x = .copy true tail line → tail = 0 ∨ ∃ line', t.prog p = .copy true tail line') :
    Pinned (v.setProg p x).Logged t.bio := by
  refine pinned.mono ?_
  rintro b _ ⟨device, i, entry, before⟩
  refine ⟨device, i, sectors ▸ entry, ?_⟩
  intro q tail line at_
  rcases eq_or_ne q p with rfl | ne
  · rw [setProg_self] at at_
    rcases same tail line at_ with rfl | ⟨line', old⟩
    · exact Nat.zero_le i
    · exact before q tail line' old
  · rw [setProg_ne x ne, progs] at at_
    exact before q tail line at_

/-- A line of `commit`: a block that `install_trans` has written is clean. -/
theorem line_pinned {m : BufPtr → Bool} (inv : Inv t.bio l) (ok : ProgOk cfg t.bio m t.sector p x)
    (pinned : Pinned t.Logged t.bio) (idle : t.bio.call p = .idle) (at_ : t.prog p = x) (line : Line cfg t p x call u) :
    Pinned u.Logged t.bio := by
  cases line with
  | installed ended =>
    -- all blocks are installed: nothing is logged any more
    refine pinned.mono ?_
    rintro b _ ⟨_, i, entry, before⟩
    have reached := before p _ _ at_
    obtain ⟨within, _⟩ := List.getElem?_eq_some_iff.1 entry
    omega
  | @releaseTarget install tail lbuf dbuf =>
    cases install with
    | false => exact pinned.setProg rfl rfl (by simp)
    | true =>
      refine pinned.mono ?_
      rintro b dirty ⟨device, i, entry, before⟩
      have reached := before p tail _ at_
      -- the block of entry `tail` is in `dbuf`, which is clean
      have later : i ≠ tail := by
        rintro rfl
        have same : t.bio.key b = t.bio.key dbuf := by
          rw [show t.bio.key dbuf = homeAt t.sector i from ok.key, homeAt, List.getD_eq_getElem?_getD, entry]
          exact Prod.ext device rfl
        have named : (t.bio.cache.buf b).dev ≠ -1 := by
          rw [show (t.bio.cache.buf b).dev = ROOTDEV from device]
          decide
        cases inv.unique b dbuf named same
        simpa [State.Panicked, idle] using ok.clean dirty
      refine ⟨device, i, entry, ?_⟩
      intro q tail' line at_'
      rcases eq_or_ne q p with rfl | ne
      · rw [setProg_self] at at_'
        cases at_'
        omega
      · rw [setProg_ne _ ne] at at_'
        exact before q tail' line at_'
  | releaseHead => exact pinned.setProg rfl rfl (by split_ifs <;> simp +contextual)
  | _ => exact pinned.setProg rfl rfl (by simp +contextual [at_])

/-- What a step plans: what it pins is logged, and the other dirty buffers stay so. -/
theorem plan_pinned {m : BufPtr → Bool} (inv : Inv t.bio l) (commits : Commits cfg t m) (pinned : Pinned t.Logged t.bio)
    (planned : plan cfg t ev = some (call, u)) :
    Pinned u.Logged t.bio ∧ ∀ p b, call = some (.pin p b) → b ∈ t.bio.held p → u.Logged (t.bio.key b) := by
  cases plan_cases planned with
  | bio allowed =>
    refine ⟨pinned, ?_⟩
    rintro p b pins
    cases pins
    simp [LogState.allows] at allowed
  | begins | refused | ends | panics => exact ⟨pinned.setProg rfl rfl (by simp), by simp⟩
  | starts _ _ _ first => exact ⟨pinned.setProg rfl rfl (by rcases first with rfl | rfl <;> simp), by simp⟩
  | @logs p b idle owned _ inside _ absorbed =>
    have device : (t.bio.cache.buf b).dev = ROOTDEV := by simpa [State.Panicked, idle] using pinned.held p b owned
    -- no commit is under way while an operation is outstanding
    have installing {i : Nat} : ∀ q tail line, t.prog q = .copy true tail line → tail ≤ i := by
      intro q tail line at_
      have none_ := commits.trans.idle (commits.trans.commits q (by rw [at_]; rfl))
      omega
    rcases absorbed with ⟨known, rfl⟩ | ⟨_, rfl⟩
    · refine ⟨pinned.mono fun _ _ => id, ?_⟩
      rintro q b' pins _
      cases pins
      obtain ⟨i, entry⟩ := List.getElem?_of_mem known
      exact ⟨device, i, entry, installing⟩
    · refine ⟨pinned.mono ?_, ?_⟩
      · rintro b' _ ⟨device, i, entry, before⟩
        exact ⟨device, i, List.getElem?_append_left (List.getElem?_eq_some_iff.1 entry).1 ▸ entry, before⟩
      · rintro q b' pins _
        cases pins
        exact ⟨device, t.sector.length, by simp [State.key, Buf.key], installing⟩
  | @commit p _ _ _ idle at_ line =>
    refine ⟨line_pinned inv (at_ ▸ commits.knows p) pinned idle at_ line, ?_⟩
    rintro q b rfl
    cases line

/-! ## Every run -/

/-- The marks of modified buffers play no part here. -/
def unmarked : BufPtr → Bool := fun _ => false

omit [DecidableEq P] in
theorem ProgOk.forget {m : BufPtr → Bool} (ok : ProgOk cfg s m sector p x) : ProgOk cfg s unmarked sector p x := by
  have frame : Frame p s m s unmarked := ⟨rfl, .inl rfl, fun _ _ => rfl, fun _ _ _ => rfl⟩
  refine ok.keep ⟨fun _ _ => .frame frame, fun _ => id, fun _ _ => rfl, fun _ _ _ => rfl, ?_⟩
  exact fun _ _ written => ⟨written.owns, rfl, written.key, written.clean⟩

/-- What is known in every state that a run visits. -/
structure Known (cfg : Layout D) (t : LogState P D) : Prop where
  commits : Commits cfg t unmarked
  pinned : Pinned t.Logged t.bio

theorem logStep_known (inv : Inv t.bio l) (known : Known cfg t) (taken : logStep cfg t ev = some t') : Known cfg t' := by
  have commits : Commits cfg t' _ := logStep_commits inv (fun _ _ => rfl) known.commits taken
  obtain ⟨call, u, planned, progs, sectors, _, effect⟩ := logStep_plan taken
  refine ⟨⟨commits.trans, fun p => (commits.knows p).forget⟩, ?_⟩
  obtain ⟨pinned, log⟩ := plan_pinned inv known.commits known.pinned planned
  have logged : t'.Logged = u.Logged := by
    unfold LogState.Logged
    rw [progs, sectors]
  rw [logged]
  rcases effect with ⟨rfl, same⟩ | ⟨e, rfl, stepped⟩
  · rw [same]
    exact pinned
  · exact step_pinned inv pinned (fun b pins => log e.proc b (congrArg some pins)) stepped

theorem run_known {zero : D} {disk : BitVec 32 → D} {tr : List (LogState P D × LogEvent P D)}
    (run : Run (logStep cfg) (logInit zero disk) tr t) : ∃ l, Inv t.bio l ∧ Known cfg t := by
  refine run.invariant_all (fun t => ∃ l, Inv t.bio l ∧ Known cfg t) ⟨_, init_inv zero disk, ?_⟩ ?_
  · refine ⟨init_commits, ?_, nofun, ?_⟩
    all_goals simp [State.valid, State.dirty, logInit, init, binit_buf]
  · rintro t e t' ⟨l, inv, known⟩ taken
    have next := logStep_known inv known taken
    rcases logStep_below taken with ⟨_, same⟩ | ⟨f, _, stepped⟩
    · exact ⟨l, same ▸ inv, next⟩
    · obtain ⟨l', inv'⟩ := step_inv inv stepped
      exact ⟨l', inv', next⟩

end Xv6.Bio
