import Xv6.Log.Group

/-!
# No commit splits an operation

`outstanding` counts the processes that are inside an operation, and `committing`
is only set while there is none. So while an operation runs no commit does, what
it logged stays in `log.lh`, and the commit that follows its `end_op` writes it.
-/

namespace Xv6.Log

open Xv6.Lib

variable {P : Type} {g : Geometry} {s s' : State P} {e : Event P} {p q : P} {n : Int}
  {phase : P → Phase} {f : Phase} {x : Sector}

/-! ## The invariant -/

/-- `n` is the number of processes inside an operation. -/
def Counts (phase : P → Phase) (n : Int) : Prop :=
  ∃ ops : Finset P, (∀ p, p ∈ ops ↔ (phase p).inOp = true) ∧ n = ops.card

/-- What holds in every state of the system. -/
structure Inv (s : State P) : Prop where
  counts : Counts s.phase s.outstanding
  quiet : s.committing = true → s.outstanding = 0
  closer : ∀ p, (s.phase p).commits = true → s.committing = true
  single : ∀ p q, (s.phase p).commits = true → (s.phase q).commits = true → p = q
  nodup : s.mem.lh.sector.Nodup
  calm : s.stopped ≠ some .logCommitting

theorem Counts.congr {phase' : P → Phase} (counts : Counts phase n)
    (same : ∀ q, (phase' q).inOp = (phase q).inOp) : Counts phase' n := by
  obtain ⟨ops, members, card⟩ := counts
  exact ⟨ops, fun q => by rw [members, same], card⟩

theorem Counts.pos (counts : Counts phase n) (within : (phase p).inOp = true) : 1 ≤ n := by
  obtain ⟨ops, members, rfl⟩ := counts
  have some : 0 < ops.card := Finset.card_pos.2 ⟨p, (members p).2 within⟩
  omega

theorem wakeup_inOp (q : P) : (s.wakeup.phase q).inOp = (s.phase q).inOp := by
  unfold State.wakeup
  by_cases asleep : s.phase q = .asleep <;> simp [asleep, Phase.inOp]

theorem wakeup_commits (q : P) : (s.wakeup.phase q).commits = (s.phase q).commits := by
  unfold State.wakeup
  by_cases asleep : s.phase q = .asleep <;> simp [asleep, Phase.commits]

theorem Inv.wakeup (inv : Inv s) : Inv s.wakeup where
  counts := inv.counts.congr wakeup_inOp
  quiet := inv.quiet
  closer p commits := inv.closer p (by rwa [wakeup_commits] at commits)
  single p q left right := inv.single p q (by rwa [wakeup_commits] at left) (by rwa [wakeup_commits] at right)
  nodup := inv.nodup
  calm := inv.calm

theorem Inv.stop (inv : Inv s) {why : Stop} (other : why ≠ .logCommitting) : Inv (s.stop why) :=
  { inv with calm := fun same => other (Option.some.inj same) }

theorem ready_inv (d : Disk) : Inv (ready P d) := by
  refine ⟨⟨∅, ?_, rfl⟩, ?_, ?_, ?_, List.nodup_nil, ?_⟩ <;> simp [ready, Phase.inOp, Phase.commits]

/-- While an operation runs nothing commits. -/
theorem Inv.no_commit (inv : Inv s) (within : (s.phase p).inOp = true) : s.committing = false := by
  have running := inv.counts.pos within
  by_contra committing
  have := inv.quiet (by simpa using committing)
  omega

theorem Inv.no_committer (inv : Inv s) (within : (s.phase p).inOp = true) (q : P) :
    (s.phase q).commits = false := by
  by_contra commits
  have committing := inv.closer q (by simpa using commits)
  rw [inv.no_commit within] at committing
  cases committing

variable [DecidableEq P]

namespace Counts

theorem stay (counts : Counts phase n) (same : f.inOp = (phase p).inOp) : Counts (Function.update phase p f) n := by
  apply counts.congr
  intro q
  rcases eq_or_ne q p with rfl | other
  · rw [Function.update_self, same]
  · rw [Function.update_of_ne other]

theorem enter (counts : Counts phase n) (out : (phase p).inOp = false) (into : f.inOp = true) :
    Counts (Function.update phase p f) (n + 1) := by
  obtain ⟨ops, members, rfl⟩ := counts
  have new : p ∉ ops := by rw [members, out]; decide
  refine ⟨insert p ops, fun q => ?_, by rw [Finset.card_insert_of_notMem new]; rfl⟩
  rcases eq_or_ne q p with rfl | other
  · simp [into]
  · simp [other, members]

theorem leave (counts : Counts phase n) (within : (phase p).inOp = true) (out : f.inOp = false) :
    Counts (Function.update phase p f) (n - 1) := by
  obtain ⟨ops, members, rfl⟩ := counts
  have old : p ∈ ops := (members p).2 within
  have card := Finset.card_erase_add_one old
  refine ⟨ops.erase p, fun q => ?_, by omega⟩
  rcases eq_or_ne q p with rfl | other
  · simp [out]
  · simp [other, members]

end Counts

/-! ## Every event keeps it -/

/-- Only `p` can become a committer by a change of its phase, and it does not if the phase is none. -/
theorem commits_setPhase (plain : f.commits = false) (commits : ((s.setPhase p f).phase q).commits = true) :
    (s.phase q).commits = true ∧ q ≠ p := by
  rcases eq_or_ne q p with rfl | other
  · simp [State.setPhase, plain] at commits
  · exact ⟨by simpa [State.setPhase, other] using commits, other⟩

theorem Inv.setPhase (inv : Inv s) (same : f.inOp = (s.phase p).inOp) (plain : f.commits = false) :
    Inv (s.setPhase p f) where
  counts := inv.counts.stay same
  quiet := inv.quiet
  closer q commits := inv.closer q (commits_setPhase plain commits).1
  single q r left right := inv.single q r (commits_setPhase plain left).1 (commits_setPhase plain right).1
  nodup := inv.nodup
  calm := inv.calm

theorem Inv.beginOp (inv : Inv s) (outside : s.phase p = .outside) : Inv (s.beginOp p) := by
  have out : (s.phase p).inOp = false := by rw [outside]; rfl
  have waits : Inv (s.setPhase p .asleep) := inv.setPhase (by rw [out]; rfl) rfl
  unfold State.beginOp
  split
  · exact waits
  · rename_i idle
    split
    · exact waits
    · constructor
      · exact inv.counts.enter out rfl
      · intro committing
        exact absurd committing idle
      · intro q commits
        exact inv.closer q (commits_setPhase rfl commits).1
      · intro q r left right
        exact inv.single q r (commits_setPhase rfl left).1 (commits_setPhase rfl right).1
      · exact inv.nodup
      · exact inv.calm

theorem Inv.logTest (inv : Inv s) (active : s.phase p = .active) : Inv (s.logTest g p x) := by
  unfold State.logTest
  split
  · exact inv.stop (by decide)
  · split
    · exact inv.stop (by decide)
    · exact inv.setPhase (by rw [active]; rfl) rfl

/-- Absorption keeps every entry, adds the new one, and makes no duplicate. -/
theorem absorb_spec {lh lh' : LogHeader} (absorbed : lh.absorb x = some lh') :
    (∀ y, y ∈ lh'.sector ↔ y ∈ lh.sector ∨ y = x) ∧ (lh.sector.Nodup → lh'.sector.Nodup) := by
  unfold LogHeader.absorb at absorbed
  split at absorbed
  · rename_i present
    cases absorbed
    refine ⟨fun y => ⟨.inl, ?_⟩, id⟩
    rintro (old | rfl) <;> assumption
  · rename_i absent
    split at absorbed
    · cases absorbed
      refine ⟨fun y => by simp, fun nodup => ?_⟩
      apply List.nodup_append.2
      refine ⟨nodup, List.nodup_singleton x, fun y old z new => ?_⟩
      rintro rfl
      exact absent (List.mem_singleton.1 new ▸ old)
    · cases absorbed

theorem Inv.logAppend (inv : Inv s) (writing : s.phase p = .writing x) (data : Block) :
    Inv (s.logAppend p x data) := by
  have active : Inv (s.setPhase p .active) := inv.setPhase (by rw [writing]; rfl) rfl
  unfold State.logAppend
  split
  · exact inv.stop (by decide)
  · rename_i lh absorbed
    exact { active with nodup := (absorb_spec absorbed).2 inv.nodup }

theorem Inv.endOp (inv : Inv s) (active : s.phase p = .active) : Inv (s.endOp p) := by
  have within : (s.phase p).inOp = true := by rw [active]; rfl
  have idle := inv.no_commit within
  have nobody := inv.no_committer within
  simp only [State.endOp, idle, Bool.false_eq_true, if_false]
  split
  · rename_i last
    constructor
    · exact inv.counts.leave within rfl
    · exact fun _ => last
    · exact fun _ _ => rfl
    · -- `p` is the only committer, as there was none
      have only : ∀ q, ((s.setPhase p .closing).phase q).commits = true → q = p := by
        intro q commits
        by_contra other
        simp [State.setPhase, other, nobody] at commits
      exact fun q r left right => (only q left).trans (only r right).symm
    · exact inv.nodup
    · exact inv.calm
  · apply Inv.wakeup
    constructor
    · exact inv.counts.leave within rfl
    · intro committing
      cases committing
    · intro q commits
      exact absurd (commits_setPhase rfl commits).1 (by simp [nobody q])
    · intro q r left right
      exact inv.single q r (commits_setPhase rfl left).1 (commits_setPhase rfl right).1
    · exact inv.nodup
    · exact inv.calm

/-- A commit leaves the header empty. -/
theorem commit_lh (m : Machine) : (m.commit g).lh.sector = [] := by
  unfold Machine.commit
  split
  · rfl
  · rename_i none
    exact List.eq_nil_of_length_eq_zero (by omega)

theorem Inv.commit (inv : Inv s) (closing : s.phase p = .closing) : Inv (s.commit g p) := by
  have committer : (s.phase p).commits = true := by rw [closing]; rfl
  have others : ∀ q, ((s.setPhase p .committed).phase q).commits = true → (s.phase q).commits = true := by
    intro q commits
    rcases eq_or_ne q p with rfl | other
    · exact committer
    · simpa [State.setPhase, other] using commits
  constructor
  · exact inv.counts.stay (by rw [closing]; rfl)
  · exact inv.quiet
  · exact fun q commits => inv.closer q (others q commits)
  · exact fun q r left right => inv.single q r (others q left) (others r right)
  · show (s.mem.commit g).lh.sector.Nodup
    rw [commit_lh]
    exact List.nodup_nil
  · exact inv.calm

theorem Inv.finish (inv : Inv s) (committed : s.phase p = .committed) : Inv (s.finish p) := by
  have committer : (s.phase p).commits = true := by rw [committed]; rfl
  -- the committer is the only one, so none is left
  have none : ∀ q, ((s.setPhase p .outside).phase q).commits = true → False := by
    intro q commits
    obtain ⟨old, other⟩ := commits_setPhase rfl commits
    exact other (inv.single q p old committer)
  apply Inv.wakeup
  constructor
  · exact inv.counts.stay (by rw [committed]; rfl)
  · intro committing
    cases committing
  · exact fun q commits => (none q commits).elim
  · exact fun q _ commits _ => (none q commits).elim
  · exact inv.nodup
  · exact inv.calm

/-- A step is an enabled event of a kernel that has not stopped. -/
theorem step_eq (taken : step g s e = some s') : s.stopped = none ∧ e.enabled s = true ∧ s' = e.apply g s := by
  unfold step at taken
  split at taken
  · rename_i able
    exact ⟨able.1, able.2, (Option.some.inj taken).symm⟩
  · cases taken

theorem step_inv (inv : Inv s) (taken : step g s e = some s') : Inv s' := by
  obtain ⟨_, able, rfl⟩ := step_eq taken
  cases e with
  | beginOp p => exact inv.beginOp (of_decide_eq_true able)
  | logTest p x => exact inv.logTest (of_decide_eq_true able)
  | logAppend p x data => exact inv.logAppend (of_decide_eq_true able) data
  | endOp p => exact inv.endOp (of_decide_eq_true able)
  | commit p => exact inv.commit (of_decide_eq_true able)
  | finish p => exact inv.finish (of_decide_eq_true able)

/-! ## Operations in a run -/

variable {tr : List (State P × Event P)} {d : Disk}

theorem run_inv (run : Run (step g) (ready P d) tr s) : Inv s :=
  run.invariant_all Inv (ready_inv d) fun _ _ _ inv taken => step_inv inv taken

/-- Only its own `begin_op` and `end_op` take a process into and out of an operation. -/
theorem step_inOp (taken : step g s e = some s') (notBegin : e ≠ .beginOp p) (notEnd : e ≠ .endOp p) :
    (s'.phase p).inOp = (s.phase p).inOp := by
  obtain ⟨_, able, rfl⟩ := step_eq taken
  have update : ∀ q f, (q = p → f.inOp = (s.phase p).inOp) →
      ((s.setPhase q f).phase p).inOp = (s.phase p).inOp := by
    intro q f same
    rcases eq_or_ne p q with rfl | other
    · simpa [State.setPhase] using same rfl
    · simp [State.setPhase, other]
  cases e with
  | beginOp q =>
    have other : q ≠ p := fun same => notBegin (by rw [same])
    simp only [Event.apply, State.beginOp]
    split_ifs <;> exact update q _ fun same => absurd same other
  | logTest q x =>
    have active : s.phase q = .active := of_decide_eq_true able
    simp only [Event.apply, State.logTest]
    split_ifs
    · rfl
    · rfl
    · apply update
      rintro rfl
      rw [active]
      rfl
  | logAppend q x data =>
    have writing : s.phase q = .writing x := of_decide_eq_true able
    simp only [Event.apply, State.logAppend]
    split
    · rfl
    · apply update
      rintro rfl
      rw [writing]
      rfl
  | endOp q =>
    have other : q ≠ p := fun same => notEnd (by rw [same])
    simp only [Event.apply, State.endOp]
    split_ifs
    · rfl
    · exact update q _ fun same => absurd same other
    · rw [wakeup_inOp]
      exact update q _ fun same => absurd same other
  | commit q =>
    have closing : s.phase q = .closing := of_decide_eq_true able
    apply update
    rintro rfl
    rw [closing]
    rfl
  | finish q =>
    have committed : s.phase q = .committed := of_decide_eq_true able
    simp only [Event.apply, State.finish, wakeup_inOp]
    apply update
    rintro rfl
    rw [committed]
    rfl

/-- Only a commit takes a sector out of `log.lh`. -/
theorem step_logged (taken : step g s e = some s') (notCommit : ∀ q, e ≠ .commit q) (logged : x ∈ s.mem.lh.sector) :
    x ∈ s'.mem.lh.sector := by
  obtain ⟨_, _, rfl⟩ := step_eq taken
  cases e with
  | beginOp q =>
    simp only [Event.apply, State.beginOp]
    split_ifs <;> exact logged
  | logTest q y =>
    simp only [Event.apply, State.logTest]
    split_ifs <;> exact logged
  | logAppend q y data =>
    simp only [Event.apply, State.logAppend]
    split
    · exact logged
    · rename_i lh absorbed
      exact ((absorb_spec absorbed).1 x).2 (.inl logged)
  | endOp q =>
    simp only [Event.apply, State.endOp]
    split_ifs <;> exact logged
  | commit q => exact absurd rfl (notCommit q)
  | finish q => exact logged

/-- From `m` to `m'` the sectors `names` were written, in this order. -/
def Wrote (m : Machine) (names : List Sector) (m' : Machine) : Prop :=
  ∃ ws, m'.written = m.written ++ ws ∧ ws.map Prod.fst = names

theorem Wrote.trans {m1 m2 m3 : Machine} {names names' : List Sector} (first : Wrote m1 names m2)
    (second : Wrote m2 names' m3) : Wrote m1 (names ++ names') m3 := by
  obtain ⟨ws, written, rfl⟩ := first
  obtain ⟨vs, written', rfl⟩ := second
  exact ⟨ws ++ vs, by rw [written', written, List.append_assoc], List.map_append⟩

theorem wrote_bwrite (m : Machine) (b : Block) : Wrote m [x] (m.bwrite x b) := ⟨[(x, b)], rfl, rfl⟩

/-- A loop of `bwrite`s writes its targets and keeps `log.lh`. -/
theorem wrote_loop {ι : Type} (l : List ι) (dst : ι → Sector) (val : Machine → ι → Block) (m : Machine) :
    Wrote m (l.map dst) (l.foldl (fun m i => m.bwrite (dst i) (val m i)) m) ∧
      (l.foldl (fun m i => m.bwrite (dst i) (val m i)) m).lh = m.lh := by
  induction l generalizing m with
  | nil => exact ⟨⟨[], by simp, rfl⟩, rfl⟩
  | cons i l ih =>
    obtain ⟨rest, kept⟩ := ih (m.bwrite (dst i) (val m i))
    exact ⟨(wrote_bwrite m (val m i)).trans rest, kept⟩

theorem wrote_installTrans (m : Machine) : Wrote m m.lh.sector (m.installTrans g) := by
  have loop := (wrote_loop m.lh.sector.zipIdx (fun i => i.1) (fun m i => m.bread (g.block i.2)) m).1
  rwa [show m.lh.sector.zipIdx.map (fun i => i.1) = m.lh.sector from List.zipIdx_map_fst 0 _] at loop

/-- A commit writes every sector of `log.lh`. -/
theorem commit_writes (m : Machine) (logged : x ∈ m.lh.sector) : ∃ names, Wrote m names (m.commit g) ∧ x ∈ names := by
  obtain ⟨copied, kept⟩ := wrote_loop m.lh.sector.zipIdx (fun i => g.block i.2) (fun m i => m.bread i.1) m
  have headed : Wrote (m.writeLog g) [g.start] (Machine.writeHead g (m.writeLog g)) := wrote_bwrite _ _
  have installed := wrote_installTrans (g := g) (Machine.writeHead g (m.writeLog g))
  have cleared : Wrote (Machine.installTrans g (Machine.writeHead g (m.writeLog g))) [g.start] (m.commit g) := by
    rw [Machine.commit, if_pos (List.length_pos_of_mem logged)]
    exact ⟨_, rfl, rfl⟩
  refine ⟨_, ((copied.trans headed).trans installed).trans cleared, ?_⟩
  have home : x ∈ (Machine.writeHead g (m.writeLog g)).lh.sector := by
    rw [show (Machine.writeHead g (m.writeLog g)).lh = m.lh from kept]
    exact logged
  simp [home]

/-- One operation of `p` in a run: its `begin_op` in state `s0`, the steps `mid` of all processes, and
its `end_op` in state `s1`. -/
structure Operation (p : P) (tr pre : List (State P × Event P)) (s0 : State P) (mid : List (State P × Event P))
    (s1 : State P) (post : List (State P × Event P)) : Prop where
  shape : tr = pre ++ (s0, .beginOp p) :: (mid ++ (s1, .endOp p) :: post)
  whole : ∀ q ∈ mid, q.2 ≠ .beginOp p ∧ q.2 ≠ .endOp p

section
variable {pre mid post : List (State P × Event P)} {s0 s1 t : State P}

/-- A run around one of its operations: the part inside, and the part after. -/
theorem Operation.parts (op : Operation p tr pre s0 mid s1 post) (run : Run (step g) (ready P d) tr s) :
    ∃ u v, Run (step g) (ready P d) (pre ++ [(s0, .beginOp p)]) u ∧ Run (step g) u mid s1 ∧
      step g s1 (.endOp p) = some v ∧ Run (step g) v post s := by
  rw [op.shape] at run
  obtain ⟨before, u, begun, rest⟩ := run.around
  obtain ⟨inside, v, ended, after⟩ := rest.around
  exact ⟨u, v, before.next begun, inside, ended, after⟩

/-- The process is inside its operation in all of them. -/
theorem Operation.inOp (op : Operation p tr pre s0 mid s1 post) (run : Run (step g) (ready P d) tr s)
    (member : (t, e) ∈ mid) : (t.phase p).inOp = true := by
  obtain ⟨u, v, _, inside, ended, _⟩ := op.parts run
  have active : s1.phase p = .active := of_decide_eq_true (step_eq ended).2.1
  obtain ⟨front, back, rfl⟩ := List.append_of_mem member
  obtain ⟨_, _, taken, rest⟩ := inside.around
  have kept := (Run.start.next taken).trans rest |>.invariant
    (fun _ e => e ≠ .beginOp p ∧ e ≠ .endOp p) (fun s => (s.phase p).inOp = (t.phase p).inOp) rfl
    (fun _ _ _ same others taken => (step_inOp taken others.1 others.2).trans same)
    (fun q hq => op.whole q (List.mem_append_right _ (by simpa using hq)))
  rw [← kept, active]
  rfl

/-- What an operation logged is still logged when the next commit runs. -/
theorem Operation.logged (op : Operation p tr pre s0 mid s1 post) (run : Run (step g) (ready P d) tr s)
    {gap rest : List (State P × Event P)} {s2 : State P} {r : P} (next : post = gap ++ (s2, .commit r) :: rest)
    (calm : ∀ q ∈ mid ++ gap, ∀ r, q.2 ≠ .commit r) {data : Block} (member : (t, .logAppend p x data) ∈ mid) :
    x ∈ s2.mem.lh.sector := by
  obtain ⟨u, v, _, inside, ended, after⟩ := op.parts run
  rw [next] at after
  obtain ⟨gapped, _, committed, _⟩ := after.around
  obtain ⟨front, back, rfl⟩ := List.append_of_mem member
  obtain ⟨_, w, appended, remaining⟩ := inside.around
  -- a kernel that stopped takes no further step, so the sector stays logged up to the commit
  have kept := ((remaining.next ended).trans gapped).invariant (fun _ e => ∀ r, e ≠ .commit r)
    (fun s => s.stopped = none → x ∈ s.mem.lh.sector) (by
      obtain ⟨running, _, rfl⟩ := step_eq appended
      simp only [Event.apply, State.logAppend]
      split
      · intro alive
        cases alive
      · rename_i lh absorbed
        exact fun _ => ((absorb_spec absorbed).1 x).2 (.inr rfl))
    (fun _ _ _ logged calm taken _ => step_logged taken calm (logged (step_eq taken).1))
    (by
      intro q hq
      rcases List.mem_append.1 hq with early | late
      · rcases List.mem_append.1 early with inner | last
        · exact calm q (by simp [inner])
        · rw [List.mem_singleton.1 last]
          simp
      · exact calm q (by simp [late]))
  exact kept (step_eq committed).1

end

/-- **Group commit never splits an operation.** -/
theorem group_commit (run : Run (step g) (ready P d) tr s) :
    (s.committing = true → s.outstanding = 0) ∧ s.stopped ≠ some .logCommitting ∧ s.mem.lh.sector.Nodup ∧
      (∀ t r, (t, .commit r) ∈ tr → ∀ p, (t.phase p).inOp = false) ∧
      ∀ p pre s0 mid s1 post, Operation p tr pre s0 mid s1 post → (∀ q ∈ mid, ∀ r, q.2 ≠ .commit r) ∧
        ∀ gap s2 r rest, post = gap ++ (s2, .commit r) :: rest → (∀ q ∈ gap, ∀ r, q.2 ≠ .commit r) →
          ∀ t x data, (t, .logAppend p x data) ∈ mid →
            x ∈ s2.mem.lh.sector ∧ ∃ names, Wrote s2.mem names (s2.mem.commit g) ∧ x ∈ names := by
  have alone : ∀ t r, (t, .commit r) ∈ tr → ∀ p, (t.phase p).inOp = false := by
    intro t r member p
    obtain ⟨pre, rest, t', rfl, reached, taken⟩ := run.prefix_of_mem member
    have closing : t.phase r = .closing := of_decide_eq_true (step_eq taken).2.1
    by_contra within
    have nobody := (run_inv reached).no_committer (by simpa using within) r
    rw [closing] at nobody
    cases nobody
  refine ⟨(run_inv run).quiet, (run_inv run).calm, (run_inv run).nodup, alone, fun p pre s0 mid s1 post op => ?_⟩
  have calm : ∀ q ∈ mid, ∀ r, q.2 ≠ .commit r := by
    rintro ⟨t, e⟩ member r rfl
    have within := op.inOp run member
    rw [alone t r (by rw [op.shape]; simp [member]) p] at within
    cases within
  refine ⟨calm, fun gap s2 r rest next quiet t x data member => ?_⟩
  have logged := op.logged run next (fun q hq => (List.mem_append.1 hq).elim (calm q) (quiet q)) member
  exact ⟨logged, commit_writes s2.mem logged⟩

/-- Two operations overlap, each logs a sector: the commit after the second one writes both. -/
theorem group_commit_two : ∃ tr s t, Run (step mkfsLog) (ready Bool fun _ _ => 0) tr s ∧ (t, .commit false) ∈ tr ∧
    ∀ x ∈ [29, 30], x ∈ t.mem.lh.sector ∧ ∃ names, Wrote t.mem names (t.mem.commit mkfsLog) ∧ x ∈ names := by
  have next {s : State Bool} (e : Event Bool) (able : s.stopped = none ∧ e.enabled s = true) :
      step mkfsLog s e = some (e.apply mkfsLog s) := if_pos able
  have run : Run (step mkfsLog) (ready Bool fun _ _ => 0) _ _ :=
    ((((((((Run.start.next (next (.beginOp true) (by decide +kernel))).next (next (.beginOp false) (by decide +kernel))).next
      (next (.logTest true 29) (by decide +kernel))).next (next (.logAppend true 29 fun _ => 1) (by decide +kernel))).next
      (next (.logTest false 30) (by decide +kernel))).next (next (.endOp true) (by decide +kernel))).next
      (next (.logAppend false 30 fun _ => 2) (by decide +kernel))).next (next (.endOp false) (by decide +kernel))).next
      (next (.commit false) (by decide +kernel))
  obtain ⟨_, _, _, _, ops⟩ := group_commit run
  refine ⟨_, _, _, run, List.mem_append_right _ (List.mem_singleton_self _), ?_⟩
  rw [List.forall_mem_cons, List.forall_mem_singleton]
  constructor
  · exact (ops true [] _ [_, _, _, _] _ [_, _, _] ⟨rfl, by simp⟩).2 [_, _] _ false [] rfl (by simp) _ 29 _
      (.tail _ (.tail _ (.head _)))
  · exact (ops false [_] _ [_, _, _, _, _] _ [_] ⟨rfl, by simp⟩).2 [] _ false [] rfl (by simp) _ 30 _
      (.tail _ (.tail _ (.tail _ (.tail _ (.head _)))))

end Xv6.Log
