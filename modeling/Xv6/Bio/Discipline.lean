import Xv6.Bio.Custody

/-!
# Commits keep the discipline

While a process is in `commit` no operation is outstanding, so `log.lh` does not
change. The process knows which blocks are in its hands and that whatever it releases
has been written: it keeps to the discipline that the other processes are asked to
keep to.
-/

namespace Xv6.Bio

open Xv6.Lib

variable {P D : Type} {l : List BufPtr} {p q : P} {b : BufPtr} {m m' : BufPtr → Bool}

/-! ## Transactions -/

/-- The process is in `end_op` with `do_commit` set. -/
def Prog.commits : Prog → Bool
  | .copy _ _ _ | .head _ _ | .done => true
  | .out | .op | .panic _ => false

theorem Prog.free_of_commits {x : Prog} (commits : x.commits = true) : x.free = false := by
  cases x <;> first | rfl | cases commits

structure Transactions (t : LogState P D) : Prop where
  ops : ∃ ps : List P, ps.Nodup ∧ (∀ p, t.prog p = .op → p ∈ ps) ∧ ps.length ≤ t.outstanding
  idle : t.committing = true → t.outstanding = 0
  commits : ∀ p, (t.prog p).commits = true → t.committing = true
  one : ∀ p q, (t.prog p).commits = true → (t.prog q).commits = true → p = q

/-- No operation is under way during a commit. -/
theorem Transactions.no_op {t : LogState P D} (trans : Transactions t) (committing : t.committing = true) (p : P) :
    t.prog p ≠ .op := by
  intro inOp
  obtain ⟨ps, _, all, few⟩ := trans.ops
  have none_ := trans.idle committing
  have member := all p inOp
  rw [none_, Nat.le_zero, List.length_eq_zero_iff] at few
  rw [few] at member
  cases member

section
variable [DecidableEq P] {cfg : Layout D} {t t' u : LogState P D} {ev : LogEvent P D} {call : Option (Event P D)}

@[simp] theorem setProg_self (t : LogState P D) (p : P) (x : Prog) : (t.setProg p x).prog p = x := Function.update_self ..

theorem setProg_ne (x : Prog) (ne : q ≠ p) : (t.setProg p x).prog q = t.prog q := Function.update_of_ne ne ..

/-- A process that does not leave an operation goes elsewhere. -/
theorem Transactions.setProg (trans : Transactions t) {x : Prog} (op : x ≠ .op)
    (commits : x.commits = true → (t.prog p).commits = true) : Transactions (t.setProg p x) where
  ops := by
    obtain ⟨ps, nodup, all, few⟩ := trans.ops
    refine ⟨ps, nodup, ?_, few⟩
    intro q inOp
    rcases eq_or_ne q p with rfl | ne
    · rw [setProg_self] at inOp
      exact absurd inOp op
    · rw [setProg_ne x ne] at inOp
      exact all q inOp
  idle := trans.idle
  commits := by
    intro q h
    rcases eq_or_ne q p with rfl | ne
    · rw [setProg_self] at h
      exact trans.commits q (commits h)
    · rw [setProg_ne x ne] at h
      exact trans.commits q h
  one := by
    have old {q : P} (h : ((t.setProg p x).prog q).commits = true) : (t.prog q).commits = true := by
      rcases eq_or_ne q p with rfl | ne
      · rw [setProg_self] at h
        exact commits h
      · rwa [setProg_ne x ne] at h
    exact fun q r hq hr => trans.one q r (old hq) (old hr)

theorem Line.commits {x : Prog} (line : Line cfg t p x call u) : x.commits = true := by cases line <;> rfl

/-- An operation that ends gives its reservation back. -/
theorem Transactions.leaves (trans : Transactions t) (inOp : t.prog p = .op) :
    Transactions ({ t with outstanding := t.outstanding - 1 }.setProg p .out) := by
  have released : Transactions (t.setProg p .out) := trans.setProg nofun nofun
  refine ⟨?_, ?_, released.commits, released.one⟩
  · obtain ⟨ps, nodup, all, few⟩ := trans.ops
    refine ⟨ps.erase p, nodup.erase p, ?_, ?_⟩
    · intro q inOp'
      rcases eq_or_ne q p with rfl | ne
      · rw [setProg_self] at inOp'
        cases inOp'
      · rw [setProg_ne _ ne] at inOp'
        exact (List.mem_erase_of_ne ne).2 (all q inOp')
    · rw [List.length_erase_of_mem (all p inOp)]
      exact Nat.sub_le_sub_right few 1
  · intro committing
    exact absurd inOp (trans.no_op committing p)

/-- The last operation begins the commit. -/
theorem Transactions.begins (trans : Transactions (t.setProg p .out)) (quiet : t.committing = false)
    (last : t.outstanding = 0) {x : Prog} (op : x ≠ .op) :
    Transactions ({ t with committing := true }.setProg p x) := by
  have nobody {q : P} (ne : q ≠ p) (h : ((t.setProg p x).prog q).commits = true) : False := by
    have at_ : (t.setProg p x).prog q = (t.setProg p .out).prog q := by rw [setProg_ne _ ne, setProg_ne _ ne]
    have committing : t.committing = true := trans.commits q (at_ ▸ h)
    rw [quiet] at committing
    cases committing
  refine ⟨?_, fun _ => last, fun _ _ => rfl, ?_⟩
  · obtain ⟨ps, nodup, all, few⟩ := trans.ops
    refine ⟨ps, nodup, fun q inOp => ?_, few⟩
    rcases eq_or_ne q p with rfl | ne
    · rw [setProg_self] at inOp
      exact absurd inOp op
    · rw [setProg_ne _ ne] at inOp
      exact all q (by rw [setProg_ne _ ne]; exact inOp)
  · intro q r hq hr
    have mine {q : P} (h : ((t.setProg p x).prog q).commits = true) : q = p := by
      by_contra ne
      exact nobody ne h
    rw [mine hq, mine hr]

/-- The end of the commit. -/
theorem Transactions.ends (trans : Transactions t) (mine : (t.prog p).commits = true) :
    Transactions ({ t with committing := false }.setProg p .out) := by
  have nobody {q : P} (h : ((t.setProg p .out).prog q).commits = true) : False := by
    rcases eq_or_ne q p with rfl | ne
    · rw [setProg_self] at h
      cases h
    · rw [setProg_ne _ ne] at h
      exact ne (trans.one q p h mine)
  have left : Transactions (t.setProg p .out) := trans.setProg nofun nofun
  exact ⟨left.ops, nofun, fun q h => (nobody h).elim, fun q _ h => (nobody h).elim⟩

/-- A new operation. -/
theorem Transactions.enters (trans : Transactions t) (quiet : t.committing = false) :
    Transactions ({ t with outstanding := t.outstanding + 1 }.setProg p .op) := by
  obtain ⟨ps, nodup, all, few⟩ := trans.ops
  have old {q : P} (h : ((t.setProg p .op).prog q).commits = true) : (t.prog q).commits = true := by
    rcases eq_or_ne q p with rfl | ne
    · rw [setProg_self] at h
      cases h
    · rwa [setProg_ne _ ne] at h
  refine ⟨?_, fun committing => ?_, fun q h => trans.commits q (old h), fun q r hq hr => trans.one q r (old hq) (old hr)⟩
  · by_cases member : p ∈ ps
    · refine ⟨ps, nodup, fun q inOp => ?_, Nat.le_succ_of_le few⟩
      rcases eq_or_ne q p with rfl | ne
      · exact member
      · rw [setProg_ne _ ne] at inOp
        exact all q inOp
    · refine ⟨p :: ps, List.nodup_cons.2 ⟨member, nodup⟩, fun q inOp => ?_, Nat.succ_le_succ few⟩
      rcases eq_or_ne q p with rfl | ne
      · exact List.mem_cons_self
      · rw [setProg_ne _ ne] at inOp
        exact List.mem_cons_of_mem _ (all q inOp)
  · cases quiet.symm.trans committing

/-- Every plan keeps the transactions. -/
theorem plan_transactions (trans : Transactions t) (planned : plan cfg t ev = some (call, u)) : Transactions u := by
  cases plan_cases planned with
  | bio => exact trans
  | begins _ quiet => exact trans.enters quiet
  | refused inOp committing => exact absurd inOp (trans.no_op committing _)
  | starts inOp quiet last first =>
    refine (trans.leaves inOp).begins (t := { t with outstanding := t.outstanding - 1 }) quiet last ?_
    rcases first with rfl | rfl <;> simp
  | ends inOp => exact trans.leaves inOp
  | panics => exact trans.setProg (by simp) fun h => by cases h
  | logs => exact ⟨trans.ops, trans.idle, trans.commits, trans.one⟩
  | @commit p x _ _ _ at_ line =>
    have mine : (t.prog p).commits = true := at_ ▸ line.commits
    cases line with
    | installed =>
      have cleared : Transactions { t with sector := [] } := ⟨trans.ops, trans.idle, trans.commits, trans.one⟩
      exact cleared.setProg (by simp) fun _ => mine
    | done => exact trans.ends mine
    | releaseHead => exact trans.setProg (by split_ifs <;> simp) fun _ => mine
    | _ => exact trans.setProg (by simp) fun _ => mine

/-- A process in `commit` is disturbed by its own lines only. -/
theorem plan_other (trans : Transactions t) (planned : plan cfg t ev = some (call, u)) (mine : (t.prog p).commits = true) :
    ev = .commit p ∨ u.prog p = t.prog p ∧ u.sector = t.sector ∧
      ∀ e, call = some e → e.proc ≠ p ∨ e = .advance p ∨ e = .kill p := by
  have committing := trans.commits p mine
  cases plan_cases planned with
  | @bio e allowed =>
    refine .inr ⟨rfl, rfl, ?_⟩
    rintro _ ⟨⟩
    by_cases own : e.proc = p
    · subst own
      have busy := Prog.free_of_commits mine
      cases e with
      | advance | kill => simp [Event.proc]
      | bread | store | pin | bwrite | brelse => simp_all [LogState.allows]
    · exact .inl own
  | begins _ quiet => cases quiet.symm.trans committing
  | refused inOp | starts inOp | ends inOp => exact absurd inOp (trans.no_op committing _)
  | @panics q _ _ free =>
    have ne : p ≠ q := by
      rintro rfl
      rw [Prog.free_of_commits mine] at free
      cases free
    exact .inr ⟨setProg_ne _ ne, rfl, by simp⟩
  | logs _ _ _ inside =>
    have none_ := trans.idle committing
    omega
  | @commit q _ _ _ _ at_ line =>
    rw [trans.one p q mine (at_ ▸ line.commits)]
    exact .inl rfl

/-! ## What a commit holds -/

/-- The block of the log for entry `tail`. -/
def Layout.copyAt (cfg : Layout D) (tail : Nat) : Block := (ROOTDEV, cfg.start + BitVec.ofNat 32 tail + 1)

/-- The block that entry `tail` of `log.lh` is a copy of. -/
def homeAt (sector : List (BitVec 32)) (tail : Nat) : Block := (ROOTDEV, sector.getD tail 0)

/-- The block that the loop writes for entry `tail`. -/
def Layout.targetAt (cfg : Layout D) (sector : List (BitVec 32)) (install : Bool) (tail : Nat) : Block :=
  if install then homeAt sector tail else cfg.copyAt tail

open CopyLine in
/-- What the process knows at a line of `commit`. -/
def ProgOk (cfg : Layout D) (s : State P D) (m : BufPtr → Bool) (sector : List (BitVec 32)) (p : P) : Prog → Prop
  | .copy _ tail .readHome => Fetching s m p (cfg.copyAt tail) fun _ => True
  | .copy _ tail (.copy lbuf) => Owns s p lbuf ∧ m lbuf = false ∧ s.key lbuf = cfg.copyAt tail ∧
    Fetching s m p (homeAt sector tail) (lbuf ∈ ·)
  | .copy install tail (.write lbuf dbuf) => lbuf ≠ dbuf ∧
    (Owns s p (target install lbuf dbuf) ∧ s.key (target install lbuf dbuf) = cfg.targetAt sector install tail) ∧
    Owns s p (source install lbuf dbuf) ∧ m (source install lbuf dbuf) = false
  | .copy install tail (.releaseSource lbuf dbuf) => lbuf ≠ dbuf ∧
    Written s m p (cfg.targetAt sector install tail) (target install lbuf dbuf) ∧
    Owns s p (source install lbuf dbuf) ∧ m (source install lbuf dbuf) = false
  | .copy install tail (.releaseTarget lbuf dbuf) =>
    Written s m p (cfg.targetAt sector install tail) (target install lbuf dbuf)
  | .head _ .fill => Fetching s m p (ROOTDEV, cfg.start) fun _ => True
  | .head _ (.write buf) => Owns s p buf
  | .head _ (.release buf) => Owns s p buf ∧ m buf = false
  | .copy _ _ .readLog | .head _ .read | .out | .op | .done | .panic _ => True

section
variable {s s' : State P D} {sector : List (BitVec 32)} {x : Prog} {e : Event P D} {f : Block → D}

omit [DecidableEq P] in
theorem ProgOk.of_not_commits (outside : x.commits = false) : ProgOk cfg s m sector p x := by
  cases x with
  | out | op | panic => trivial
  | copy | head | done => cases outside

omit [DecidableEq P] in
theorem ProgOk.keep (keeps : Keeps p s m s' m') (ok : ProgOk cfg s m sector p x) : ProgOk cfg s' m' sector p x := by
  have logged {b : BufPtr} (h : Owns s p b ∧ m b = false) : Owns s' p b ∧ m' b = false :=
    ⟨keeps.owns b h.1, keeps.mark b h.1 h.2⟩
  cases x with
  | out | op | done | panic => trivial
  | copy install tail line =>
    cases line with
    | readLog => trivial
    | readHome => exact keeps.fetching (cfg.copyAt tail) (fun _ => True) ok
    | copy lbuf =>
      obtain ⟨owns, mark, key, fetching⟩ := ok
      exact ⟨keeps.owns _ owns, keeps.mark _ owns mark, (keeps.key _ owns).trans key, keeps.fetching _ _ fetching⟩
    | write lbuf dbuf =>
      obtain ⟨ne, ⟨owns, key⟩, source⟩ := ok
      exact ⟨ne, ⟨keeps.owns _ owns, (keeps.key _ owns).trans key⟩, logged source⟩
    | releaseSource lbuf dbuf => exact ⟨ok.1, keeps.written _ _ ok.2.1, logged ok.2.2⟩
    | releaseTarget lbuf dbuf => exact keeps.written _ _ ok
  | head again line =>
    cases line with
    | read => trivial
    | fill => exact keeps.fetching (ROOTDEV, cfg.start) (fun _ => True) ok
    | write buf => exact keeps.owns _ ok
    | release buf => exact logged ok

omit [DecidableEq P] in
/-- The buffer that a `bread` has returned. -/
theorem Fetching.got {want : Block} {others : List BufPtr → Prop} (fetching : Fetching t.bio m p want others)
    (idle : t.bio.call p = .idle) (got : t.got p = some b) :
    t.bio.key b = want ∧ m b = false ∧ ∃ rest, t.bio.held p = b :: rest ∧ others rest := by
  unfold Fetching at fetching
  rw [idle] at fetching
  obtain ⟨b', rest, held, key, mark, others⟩ := fetching
  unfold LogState.got at got
  rw [held] at got
  cases got
  exact ⟨key, mark, rest, held, others⟩

/-- The next line of `commit`. -/
theorem ProgOk.line (inv : Inv t.bio l) (ok : ProgOk cfg t.bio m t.sector p x) (idle : t.bio.call p = .idle)
    (line : Line cfg t p x (some e) u) (taken : step cfg.disksize t.bio e = some s') :
    ProgOk cfg s' (unlogged m e) u.sector p (u.prog p) := by
  have key {b : BufPtr} (owned : b ∈ t.bio.held p) : s'.key b = t.bio.key b :=
    step_key inv taken b (.inl ((inv.busy b).2 ⟨p, owned⟩))
  cases line with
  | @readLog _ tail =>
    rw [setProg_self]
    have fetching : Fetching s' m p (cfg.copyAt tail) fun _ => True := .start trivial taken
    exact fetching
  | @readHome _ tail lbuf got =>
    have fetching : Fetching t.bio m p (cfg.copyAt tail) fun _ => True := ok
    obtain ⟨block, mark, rest, held, _⟩ := fetching.got idle got
    have owned : lbuf ∈ t.bio.held p := by simp [held]
    rw [setProg_self]
    exact ⟨.call inv taken rfl idle owned (by simp), mark, (key owned).trans block, Fetching.start owned taken⟩
  | @copy install tail lbuf dbuf got =>
    obtain ⟨owns, mark, block, fetching⟩ := ok
    obtain ⟨block', mark', rest, held, before⟩ := fetching.got idle got
    have owned : dbuf ∈ t.bio.held p := by simp [held]
    have nodup := inv.nodup p
    rw [held, List.nodup_cons] at nodup
    have ne : lbuf ≠ dbuf := by
      rintro rfl
      exact nodup.1 before
    have first : Owns s' p lbuf := .call inv taken rfl idle owns.held (by simp)
    have second : Owns s' p dbuf := .call inv taken rfl idle owned (by simp)
    rw [setProg_self]
    cases install with
    | false =>
      exact ⟨ne, ⟨first, (key owns.held).trans block⟩, second, (Function.update_of_ne ne.symm ..).trans mark'⟩
    | true => exact ⟨ne, ⟨second, (key owned).trans block'⟩, first, (Function.update_of_ne ne ..).trans mark⟩
  | @write install tail lbuf dbuf =>
    obtain ⟨ne, ⟨target, block⟩, source, mark⟩ := ok
    rw [setProg_self]
    have written : s'.call p = .bwrite (CopyLine.target install lbuf dbuf) ∨ s'.Panicked p := by
      simp only [step] at taken
      split_ifs at taken <;> cases taken
      · exact .inl (setCall_self ..)
      · exact .inr ⟨_, setCall_self ..⟩
    refine ⟨ne, ⟨.call inv taken rfl idle target.held (by simp), Function.update_self .., (key target.held).trans block,
      fun _ => written⟩, .call inv taken rfl idle source.held (by simp), (Function.update_of_ne ?_ ..).trans mark⟩
    cases install <;> simp [CopyLine.source, CopyLine.target, ne, ne.symm]
  | @releaseSource install tail lbuf dbuf =>
    obtain ⟨ne, written, _⟩ := ok
    rw [setProg_self]
    refine written.step inv taken fun _ => .inr (.inr ⟨_, ?_, rfl⟩)
    cases install <;> simp [CopyLine.source, CopyLine.target, ne, ne.symm]
  | releaseTarget =>
    rw [setProg_self]
    trivial
  | readHead =>
    rw [setProg_self]
    have fetching : Fetching s' m p (ROOTDEV, cfg.start) fun _ => True := .start trivial taken
    exact fetching
  | fillHead got =>
    have fetching : Fetching t.bio m p (ROOTDEV, cfg.start) fun _ => True := ok
    obtain ⟨_, _, rest, held, _⟩ := fetching.got idle got
    rw [setProg_self]
    exact .call inv taken rfl idle (by simp [held]) (by simp)
  | writeHead =>
    rw [setProg_self]
    exact ⟨.call inv taken rfl idle ok.held (by simp), Function.update_self ..⟩
  | releaseHead =>
    rw [setProg_self]
    split_ifs <;> trivial

/-- The lines of `commit` that make no call. -/
theorem ProgOk.pass (line : Line cfg t p x none u) : ProgOk cfg s m sector p (u.prog p) := by
  cases line
  all_goals
    rw [setProg_self]
    trivial

/-- What `commit` releases has been written. -/
theorem ProgOk.logged (ok : ProgOk cfg t.bio m t.sector p x) (line : Line cfg t p x (some (.brelse q b)) u) :
    m b = false := by
  cases line with
  | releaseSource => exact ok.2.2.2
  | releaseTarget => exact ok.mark
  | releaseHead => exact ok.2

/-- A process outside of `commit` stays outside, or enters it at its first line. -/
theorem plan_enter (planned : plan cfg t ev = some (call, u)) (outside : (t.prog p).commits = false) :
    (u.prog p).commits = false ∨ u.prog p = .copy false 0 .readLog ∨ u.prog p = .done := by
  have moved {v : LogState P D} (progs : v.prog = t.prog) {q : P} {x : Prog}
      (fresh : x.commits = false ∨ x = .copy false 0 .readLog ∨ x = .done) :
      ((v.setProg q x).prog p).commits = false ∨ (v.setProg q x).prog p = .copy false 0 .readLog ∨
        (v.setProg q x).prog p = .done := by
    rcases eq_or_ne p q with rfl | ne
    · rwa [setProg_self]
    · rw [setProg_ne _ ne, progs]
      exact .inl outside
  cases plan_cases planned with
  | bio | logs => exact .inl outside
  | begins | refused | ends | panics => exact moved rfl (.inl rfl)
  | starts _ _ _ first => exact moved rfl (.inr first)
  | @commit q _ _ _ _ at_ line =>
    have ne : p ≠ q := by
      rintro rfl
      have commits := line.commits
      rw [← at_, outside] at commits
      cases commits
    cases line
    all_goals
      rw [setProg_ne _ ne]
      exact .inl outside

theorem ProgOk.enter (planned : plan cfg t ev = some (call, u)) (outside : (t.prog p).commits = false) :
    ProgOk cfg s m sector p (u.prog p) := by
  rcases plan_enter planned outside with still | first | done
  · exact .of_not_commits still
  · rw [first]
    trivial
  · rw [done]
    trivial

end

/-! ## Every step -/

/-- The buffers modified and not yet logged after the step. -/
def LogState.marks (cfg : Layout D) (t : LogState P D) (m : BufPtr → Bool) (ev : LogEvent P D) : BufPtr → Bool :=
  (t.below cfg ev).elim m (unlogged m)

/-- The contents of the blocks after the step. -/
def LogState.contents (cfg : Layout D) (t : LogState P D) (f : Block → D) (ev : LogEvent P D) : Block → D :=
  (t.below cfg ev).elim f (modified t.bio f)

structure Commits (cfg : Layout D) (t : LogState P D) (m : BufPtr → Bool) : Prop where
  trans : Transactions t
  knows : ∀ p, ProgOk cfg t.bio m t.sector p (t.prog p)

omit [DecidableEq P] in
theorem init_commits {zero : D} {disk : BitVec 32 → D} : Commits cfg (logInit (P := P) zero disk) m :=
  ⟨⟨⟨[], List.nodup_nil, nofun, Nat.zero_le _⟩, nofun, nofun, nofun⟩, fun _ => trivial⟩

/-- A step is its plan, and the step in the cache of the plan. -/
theorem logStep_plan (taken : logStep cfg t ev = some t') : ∃ call u, plan cfg t ev = some (call, u) ∧
    t'.prog = u.prog ∧ t'.sector = u.sector ∧ (Transactions u → Transactions t') ∧
    (call = none ∧ t'.bio = t.bio ∨ ∃ e, call = some e ∧ step cfg.disksize t.bio e = some t'.bio) := by
  unfold logStep at taken
  split at taken
  · cases taken
  · rename_i u planned
    cases taken
    exact ⟨_, _, planned, rfl, rfl, id, .inl ⟨rfl, plan_bio planned⟩⟩
  · rename_i e u planned
    obtain ⟨bio, stepped, rfl⟩ := Option.map_eq_some_iff.1 taken
    exact ⟨_, _, planned, rfl, rfl, fun trans => ⟨trans.ops, trans.idle, trans.commits, trans.one⟩, .inr ⟨e, rfl, stepped⟩⟩

theorem logStep_commits (inv : Inv t.bio l) (logged : ∀ b, t.bio.busy b = false → m b = false)
    (commits : Commits cfg t m) (taken : logStep cfg t ev = some t') : Commits cfg t' (t.marks cfg m ev) := by
  obtain ⟨call, u, planned, progs, sectors, transactions, effect⟩ := logStep_plan taken
  refine ⟨transactions (plan_transactions commits.trans planned), fun p => ?_⟩
  rw [progs, sectors]
  by_cases mine : (t.prog p).commits = true
  · have marks : t.marks cfg m ev = call.elim m (unlogged m) := by simp [LogState.marks, LogState.below, planned]
    rw [marks]
    rcases plan_other commits.trans planned mine with rfl | ⟨prog, sector, elsewhere⟩
    · obtain ⟨idle, x, at_, line⟩ := commit_line planned
      rcases effect with ⟨rfl, same⟩ | ⟨e, rfl, stepped⟩
      · exact .pass line
      · exact (at_ ▸ commits.knows p).line inv idle line stepped
    · rw [prog, sector]
      rcases effect with ⟨rfl, same⟩ | ⟨e, rfl, stepped⟩
      · rw [same]
        exact commits.knows p
      · exact (commits.knows p).keep (step_keeps inv logged stepped (elsewhere e rfl))
  · exact .enter planned (by simpa using mine)

/-- **A commit keeps the discipline**: what it releases has been written. -/
theorem below_logged (commits : Commits cfg t m) (users : ∀ p b, ev = .bio (.brelse p b) → m b = false)
    (below : t.below cfg ev = some (.brelse p b)) : m b = false := by
  obtain ⟨⟨call, u⟩, planned, same⟩ := Option.bind_eq_some_iff.1 below
  cases same
  cases plan_cases planned with
  | bio => exact users p b rfl
  | @commit q _ _ _ _ at_ line => exact (at_ ▸ commits.knows q).logged line

end

end Xv6.Bio
