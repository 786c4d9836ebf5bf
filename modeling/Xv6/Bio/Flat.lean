import Xv6.Bio.Discipline

/-!
# Every `bread` returns the last modification

The contents of a block after a run are what the last store to a buffer of that
block put there, by a process of its own choice or by `commit`. The copies that
`commit` makes are invisible outside of the log: `write_log` changes log blocks only,
and `install_trans` stores into a home block what is there already.
-/

namespace Xv6.Bio

open Xv6.Lib

variable {P D : Type} {l : List BufPtr} {p q : P} {b : BufPtr} {m : BufPtr → Bool} {f : Block → D}

/-! ## The log area -/

/-- The header block and the blocks of the log. -/
def Layout.InLog (cfg : Layout D) (block : Block) : Prop :=
  block = (ROOTDEV, cfg.start) ∨ ∃ i < cfg.size - 1, block = cfg.copyAt i

instance (cfg : Layout D) (block : Block) : Decidable (cfg.InLog block) := by
  unfold Layout.InLog
  infer_instance

theorem copyAt_inj {cfg : Layout D} {i j : Nat} (hi : i < LOGSIZE) (hj : j < LOGSIZE) (same : cfg.copyAt i = cfg.copyAt j) :
    i = j := by
  have sectors : cfg.start + BitVec.ofNat 32 i + 1 = cfg.start + BitVec.ofNat 32 j + 1 := (Prod.mk.inj same).2
  have bound : LOGSIZE = 30 := rfl
  bv_omega

theorem copyAt_ne_header {cfg : Layout D} {i : Nat} (hi : i < LOGSIZE) : cfg.copyAt i ≠ (ROOTDEV, cfg.start) := by
  intro same
  have sectors : cfg.start + BitVec.ofNat 32 i + 1 = cfg.start := (Prod.mk.inj same).2
  have bound : LOGSIZE = 30 := rfl
  bv_omega

/-! ## Log blocks and home blocks -/

/-- How many blocks of the log are copies of their home blocks. -/
def mirrored (n : Nat) : Prog → Nat
  | .copy false tail (.write _ _) | .copy false tail (.releaseSource _ _) | .copy false tail (.releaseTarget _ _) => tail + 1
  | .copy false tail _ => tail
  | .copy true _ _ | .head _ _ => n
  | .out | .op | .done | .panic _ => 0

/-- The process is in the body of one of the loops at `tail`. -/
def inBody : Prog → Option Nat
  | .copy _ _ .readLog => none
  | .copy _ tail _ => some tail
  | _ => none

structure Copies (cfg : Layout D) (f : Block → D) (sector : List (BitVec 32)) (x : Prog) : Prop where
  body : ∀ tail, inBody x = some tail → tail < sector.length
  same : ∀ i < mirrored sector.length x, i < sector.length → f (cfg.copyAt i) = f (homeAt sector i)

/-- The header in memory: distinct blocks outside of the log, and not too many of them. -/
structure HeadOk (cfg : Layout D) (sector : List (BitVec 32)) : Prop where
  nodup : sector.Nodup
  fits : sector.length ≤ LOGSIZE ∧ sector.length ≤ cfg.size - 1
  outside : ∀ x ∈ sector, ¬ cfg.InLog (ROOTDEV, x)

section
variable {cfg : Layout D} {sector : List (BitVec 32)} {i j : Nat} {x : Prog}

theorem Copies.outside {f : Block → D} (out : inBody x = none)
    (same : ∀ i < mirrored sector.length x, i < sector.length → f (cfg.copyAt i) = f (homeAt sector i)) :
    Copies cfg f sector x where
  body := by
    intro tail is
    rw [out] at is
    cases is
  same := same

theorem Copies.none {f : Block → D} (out : inBody x = none) (empty : mirrored sector.length x = 0) :
    Copies cfg f sector x :=
  .outside out fun i below => absurd (empty ▸ below) (Nat.not_lt_zero i)

section
variable (head : HeadOk cfg sector)
include head

theorem HeadOk.home_outside (hi : i < sector.length) : ¬ cfg.InLog (homeAt sector i) := by
  unfold homeAt
  rw [List.getD_eq_getElem _ _ hi]
  exact head.outside _ (List.getElem_mem hi)

theorem HeadOk.copy_inLog (hi : i < sector.length) : cfg.InLog (cfg.copyAt i) :=
  .inr ⟨i, lt_of_lt_of_le hi head.fits.2, rfl⟩

theorem HeadOk.copy_ne_home (hi : i < sector.length) (hj : j < sector.length) :
    cfg.copyAt i ≠ homeAt sector j := by
  intro same
  exact head.home_outside hj (same ▸ head.copy_inLog hi)

theorem HeadOk.copy_inj (hi : i < sector.length) (hj : j < sector.length)
    (same : cfg.copyAt i = cfg.copyAt j) : i = j :=
  copyAt_inj (by have := head.fits; omega) (by have := head.fits; omega) same

end

theorem HeadOk.nil : HeadOk cfg [] := ⟨List.nodup_nil, ⟨Nat.zero_le _, Nat.zero_le _⟩, nofun⟩

theorem Copies.of_not_commits (outside : x.commits = false) : Copies cfg f sector x := by
  cases x with
  | out | op | panic => exact ⟨nofun, nofun⟩
  | copy | head | done => cases outside

/-- A copy to the log. -/
theorem Copies.writeLog (head : HeadOk cfg sector) {lbuf dbuf : BufPtr}
    (copies : Copies cfg f sector (.copy false i (.copy lbuf))) :
    Copies cfg (Function.update f (cfg.copyAt i) (f (homeAt sector i))) sector (.copy false i (.write lbuf dbuf)) := by
  have inside := copies.body i rfl
  refine ⟨copies.body, fun j hj bound => ?_⟩
  have home : homeAt sector j ≠ cfg.copyAt i := (head.copy_ne_home inside bound).symm
  rw [Function.update_of_ne home]
  rcases eq_or_ne j i with rfl | ne
  · rw [Function.update_self]
  · have copy : cfg.copyAt j ≠ cfg.copyAt i := fun same => ne (head.copy_inj bound inside same)
    rw [Function.update_of_ne copy]
    have below : j < i := by
      simp only [mirrored] at hj
      omega
    exact copies.same j below bound

/-- The header block is written. -/
theorem Copies.writeHead (head : HeadOk cfg sector) {again : Bool} {buf : BufPtr} (data : D)
    (copies : Copies cfg f sector (.head again .fill)) :
    Copies cfg (Function.update f (ROOTDEV, cfg.start) data) sector (.head again (.write buf)) := by
  refine ⟨nofun, fun j hj bound => ?_⟩
  have home : homeAt sector j ≠ (ROOTDEV, cfg.start) := fun same => head.home_outside bound (.inl same)
  have copy : cfg.copyAt j ≠ (ROOTDEV, cfg.start) := copyAt_ne_header (by have := head.fits; omega)
  rw [Function.update_of_ne home, Function.update_of_ne copy]
  exact copies.same j hj bound

end

section
variable [DecidableEq P] {cfg : Layout D} {t t' u : LogState P D} {ev : LogEvent P D} {call : Option (Event P D)}

/-- A line of `commit` keeps the copies and changes nothing outside of the log. -/
theorem line_copies {x : Prog} (ref : Refines cfg.disksize f m t.bio) (ok : ProgOk cfg t.bio m t.sector p x)
    (head : HeadOk cfg t.sector) (copies : Copies cfg f t.sector x) (idle : t.bio.call p = .idle)
    (line : Line cfg t p x call u) :
    HeadOk cfg u.sector ∧ Copies cfg (call.elim f (modified t.bio f)) u.sector (u.prog p) ∧
      ∀ block, ¬ cfg.InLog block → call.elim f (modified t.bio f) block = f block := by
  cases line with
  | @readLog install tail inside =>
    rw [setProg_self]
    refine ⟨head, ⟨?_, ?_⟩, fun _ _ => rfl⟩
    · rintro _ ⟨⟩
      exact inside
    · cases install <;> exact copies.same
  | written ended =>
    rw [setProg_self]
    exact ⟨head, .outside rfl fun i _ bound => copies.same i (lt_of_lt_of_le bound ended) bound, fun _ _ => rfl⟩
  | installed =>
    rw [setProg_self]
    exact ⟨.nil, .outside rfl fun _ _ bound => absurd bound (Nat.not_lt_zero _), fun _ _ => rfl⟩
  | @copy install tail lbuf dbuf got =>
    obtain ⟨owns, _, key, fetching⟩ := ok
    obtain ⟨key', _, rest, held, _⟩ := fetching.got idle got
    have owned : dbuf ∈ t.bio.held p := by simp [held]
    have data : (t.bio.cache.buf lbuf).data = f (t.bio.key lbuf) :=
      (ref.bufs lbuf).cached (ref.valid_of_idle idle owns.held)
    have data' : (t.bio.cache.buf dbuf).data = f (t.bio.key dbuf) := (ref.bufs dbuf).cached (ref.valid_of_idle idle owned)
    have inside := copies.body tail rfl
    rw [setProg_self]
    cases install with
    | false =>
      have stored : modified t.bio f (Event.store p lbuf (t.bio.cache.buf dbuf).data) =
          Function.update f (cfg.copyAt tail) (f (homeAt t.sector tail)) := by
        rw [modified, key, data', key']
      refine ⟨head, ?_, fun block out => ?_⟩
      · simp only [CopyLine.target, CopyLine.source, Option.elim, Bool.false_eq_true, if_false]
        rw [stored]
        exact copies.writeLog head
      · simp only [CopyLine.target, CopyLine.source, Option.elim, Bool.false_eq_true, if_false]
        rw [stored]
        refine Function.update_of_ne ?_ ..
        rintro rfl
        exact out (head.copy_inLog inside)
    | true =>
      -- the home block has these contents already
      have stored : modified t.bio f (Event.store p dbuf (t.bio.cache.buf lbuf).data) = f := by
        rw [modified, key', data, key, copies.same tail inside inside]
        exact Function.update_eq_self ..
      simp only [CopyLine.target, CopyLine.source, Option.elim, if_true]
      rw [stored]
      exact ⟨head, ⟨copies.body, copies.same⟩, fun _ _ => rfl⟩
  | @readHome install | @write install | @releaseSource install =>
    rw [setProg_self]
    refine ⟨head, ⟨copies.body, ?_⟩, fun _ _ => rfl⟩
    cases install <;> exact copies.same
  | @releaseTarget install =>
    rw [setProg_self]
    refine ⟨head, .outside rfl ?_, fun _ _ => rfl⟩
    cases install <;> exact copies.same
  | fillHead got =>
    have fetching : Fetching t.bio m p (ROOTDEV, cfg.start) fun _ => True := ok
    obtain ⟨key, _⟩ := fetching.got idle got
    rw [setProg_self]
    simp only [Option.elim, modified, key]
    refine ⟨head, copies.writeHead head _, fun block out => Function.update_of_ne ?_ ..⟩
    rintro rfl
    exact out (.inl rfl)
  | readHead | writeHead =>
    rw [setProg_self]
    exact ⟨head, .outside rfl copies.same, fun _ _ => rfl⟩
  | @releaseHead again =>
    rw [setProg_self]
    refine ⟨head, ?_, fun _ _ => rfl⟩
    cases again with
    | false => exact .outside rfl copies.same
    | true => exact .none rfl rfl
  | done =>
    rw [setProg_self]
    exact ⟨head, .none rfl rfl, fun _ _ => rfl⟩

/-! ## Every step -/

theorem contents_of_plan (planned : plan cfg t ev = some (call, u)) :
    t.contents cfg f ev = call.elim f (modified t.bio f) := by
  simp [LogState.contents, LogState.below, planned]

/-- The contents after the step, if the stores of `commit` are not counted. -/
def LogState.userContents (t : LogState P D) (f : Block → D) : LogEvent P D → Block → D
  | .bio e => modified t.bio f e
  | _ => f

omit [DecidableEq P] in
theorem userContents_congr {g : Block → D} {block : Block} (same : f block = g block) :
    t.userContents f ev block = t.userContents g ev block := by
  unfold LogState.userContents
  split
  · rename_i e
    cases e with
    | store q b data =>
      simp only [modified, Function.update_apply]
      split_ifs
      · rfl
      · exact same
    | bread | advance | kill | pin | bwrite | brelse => exact same
  · exact same

/-- Processes modify blocks inside of operations, and neither modify nor log the blocks of the log. -/
def Separate (cfg : Layout D) (t : LogState P D) : LogEvent P D → Prop
  | .bio (.store p b _) => t.prog p = .op ∧ ¬ cfg.InLog (t.bio.key b)
  | .logWrite _ b => ¬ cfg.InLog (ROOTDEV, (t.bio.cache.buf b).sector)
  | _ => True

instance (cfg : Layout D) (t : LogState P D) : (ev : LogEvent P D) → Decidable (Separate cfg t ev)
  | .bio (.store p b _) => inferInstanceAs (Decidable (t.prog p = .op ∧ ¬ cfg.InLog (t.bio.key b)))
  | .logWrite _ b => inferInstanceAs (Decidable (¬ cfg.InLog (ROOTDEV, (t.bio.cache.buf b).sector)))
  | .bio (.bread ..) | .bio (.advance _) | .bio (.kill _) | .bio (.pin ..) | .bio (.bwrite ..) | .bio (.brelse ..)
  | .beginOp _ | .endOp _ | .commit _ => .isTrue trivial

/-- Only a process of its own choice and `commit` store. -/
theorem contents_user (planned : plan cfg t ev = some (call, u)) (user : ∀ p, ev ≠ .commit p) :
    call.elim f (modified t.bio f) = t.userContents f ev := by
  cases plan_cases planned with
  | commit => exact absurd rfl (user _)
  | _ => rfl

/-- `log_write` keeps the header well formed. -/
theorem HeadOk.plan (head : HeadOk cfg t.sector) (separate : Separate cfg t ev) (user : ∀ p, ev ≠ .commit p)
    (planned : plan cfg t ev = some (call, u)) : HeadOk cfg u.sector := by
  cases plan_cases planned with
  | logs _ _ fits _ absorbed =>
    rcases absorbed with ⟨_, rfl⟩ | ⟨new, rfl⟩
    · exact head
    · refine ⟨head.nodup.append (List.nodup_singleton _) (by simpa using new), ?_, ?_⟩
      · rw [List.length_append, List.length_singleton]
        omega
      · intro x member
        rcases List.mem_append.1 member with before | same
        · exact head.outside x before
        · rw [List.mem_singleton.1 same]
          exact separate
  | commit => exact absurd rfl (user _)
  | _ => exact head

structure Mirror (cfg : Layout D) (f : Block → D) (t : LogState P D) : Prop where
  head : HeadOk cfg t.sector
  copies : ∀ p, Copies cfg f t.sector (t.prog p)

omit [DecidableEq P] in
/-- A step of another process during a commit stores nothing. -/
theorem userContents_of_commits (trans : Transactions t) (separate : Separate cfg t ev) (mine : (t.prog p).commits = true) :
    t.userContents f ev = f := by
  unfold LogState.userContents
  split
  · rename_i e
    cases e with
    | store q b data => exact absurd separate.1 (trans.no_op (trans.commits p mine) q)
    | bread | advance | kill | pin | bwrite | brelse => rfl
  · rfl

/-- A step keeps the mirror; outside of the log it stores what the operations store. -/
theorem logStep_mirror (ref : Refines cfg.disksize f m t.bio) (commits : Commits cfg t m) (mirror : Mirror cfg f t)
    (separate : Separate cfg t ev) (taken : logStep cfg t ev = some t') :
    Mirror cfg (t.contents cfg f ev) t' ∧
      ∀ block, ¬ cfg.InLog block → t.contents cfg f ev block = t.userContents f ev block := by
  obtain ⟨call, u, planned, progs, sectors, _, _⟩ := logStep_plan taken
  rw [contents_of_plan planned]
  have others {q : P} {g : Block → D} (outside : (t.prog q).commits = false) : Copies cfg g u.sector (u.prog q) := by
    rcases plan_enter planned outside with still | first | done
    · exact .of_not_commits still
    · rw [first]
      exact ⟨nofun, nofun⟩
    · rw [done]
      exact ⟨nofun, nofun⟩
  by_cases commit : ∃ p, ev = .commit p
  · obtain ⟨p, rfl⟩ := commit
    obtain ⟨idle, x, at_, line⟩ := commit_line planned
    obtain ⟨head, copies, invisible⟩ :=
      line_copies ref (at_ ▸ commits.knows p) mirror.head (at_ ▸ mirror.copies p) idle line
    have mine : (t.prog p).commits = true := at_ ▸ line.commits
    refine ⟨⟨sectors ▸ head, fun q => ?_⟩, invisible⟩
    rw [progs, sectors]
    rcases eq_or_ne q p with rfl | ne
    · exact copies
    · refine others ?_
      by_contra theirs
      exact ne (commits.trans.one q p (by simpa using theirs) mine)
  · have user : ∀ p, ev ≠ .commit p := fun p same => commit ⟨p, same⟩
    rw [contents_user planned user]
    refine ⟨⟨sectors ▸ mirror.head.plan separate user planned, fun q => ?_⟩, fun _ _ => rfl⟩
    rw [progs, sectors]
    by_cases mine : (t.prog q).commits = true
    · rcases plan_other commits.trans planned mine with rfl | ⟨prog, sector, _⟩
      · exact absurd rfl (user q)
      · rw [prog, sector, userContents_of_commits commits.trans separate mine]
        exact mirror.copies q
    · exact others (by simpa using mine)

/-! ## Whole runs -/

/-- The contents of the blocks after a run: the last modification, or what was on the disk. -/
def contentsAfter (cfg : Layout D) (disk : BitVec 32 → D) (tr : List (LogState P D × LogEvent P D)) : Block → D :=
  tr.foldl (fun f q => q.1.contents cfg f q.2) fun block => disk block.2

/-- The same, if the stores of `commit` are not counted. -/
def userContentsAfter (disk : BitVec 32 → D) (tr : List (LogState P D × LogEvent P D)) : Block → D :=
  tr.foldl (fun f q => q.1.userContents f q.2) fun block => disk block.2

/-- The buffers that have been modified after the last `log_write` or `bwrite` of them. -/
def unloggedAfter (cfg : Layout D) (tr : List (LogState P D × LogEvent P D)) : BufPtr → Bool :=
  tr.foldl (fun m q => q.1.marks cfg m q.2) fun _ => false

/-- Every modification is followed by `log_write` or `bwrite` before `brelse`. -/
def Disciplined (cfg : Layout D) (tr : List (LogState P D × LogEvent P D)) : Prop :=
  ∀ pre t p b post, tr = pre ++ (t, .bio (.brelse p b)) :: post → unloggedAfter cfg pre b = false

variable {zero : D} {disk : BitVec 32 → D} {tr : List (LogState P D × LogEvent P D)}

theorem contentsAfter_snoc (t : LogState P D) (ev : LogEvent P D) :
    contentsAfter cfg disk (tr ++ [(t, ev)]) = t.contents cfg (contentsAfter cfg disk tr) ev := by
  simp [contentsAfter]

omit [DecidableEq P] in
theorem userContentsAfter_snoc (t : LogState P D) (ev : LogEvent P D) :
    userContentsAfter disk (tr ++ [(t, ev)]) = t.userContents (userContentsAfter disk tr) ev := by
  simp [userContentsAfter]

theorem unloggedAfter_snoc (t : LogState P D) (ev : LogEvent P D) :
    unloggedAfter cfg (tr ++ [(t, ev)]) = t.marks cfg (unloggedAfter cfg tr) ev := by
  simp [unloggedAfter]

omit [DecidableEq P] in
theorem init_refines : Refines cfg.disksize (fun block => disk block.2) (fun _ => false) (init (P := P) zero disk) where
  bufs b := by
    rw [init, binit_buf]
    constructor <;> simp
  uncached := fun _ _ => rfl
  calls := by simp [init, CallReady]

/-- A disciplined run refines the flat store, and so does each commit keep the discipline. -/
theorem run_refines (run : Run (logStep cfg) (logInit zero disk) tr t) (disciplined : Disciplined cfg tr) :
    (∃ l, Inv t.bio l) ∧ Refines cfg.disksize (contentsAfter cfg disk tr) (unloggedAfter cfg tr) t.bio ∧
      Commits cfg t (unloggedAfter cfg tr) := by
  induction run with
  | start => exact ⟨⟨_, init_inv zero disk⟩, init_refines, init_commits⟩
  | @next tr t t' ev run taken ih =>
    have before : Disciplined cfg tr := by
      rintro pre u p b post rfl
      exact disciplined pre u p b (post ++ [(t, ev)]) (by simp)
    obtain ⟨⟨l, inv⟩, ref, commits⟩ := ih before
    have users : ∀ p b, ev = .bio (.brelse p b) → unloggedAfter cfg tr b = false := by
      rintro p b rfl
      exact disciplined tr t p b [] rfl
    rw [contentsAfter_snoc, unloggedAfter_snoc]
    refine ⟨run_bio_inv (run.next taken), ?_, logStep_commits inv (fun b => (ref.bufs b).released) commits taken⟩
    rcases logStep_below taken with ⟨below, same⟩ | ⟨e, below, stepped⟩
    · rw [same]
      simpa [LogState.contents, LogState.marks, below] using ref
    · have logged : ∀ p b, e = .brelse p b → unloggedAfter cfg tr b = false := by
        rintro p b rfl
        exact below_logged commits users below
      simpa [LogState.contents, LogState.marks, below] using step_refines inv ref logged stepped

/-- Outside of the log the copies that commits make are invisible. -/
theorem run_mirror (run : Run (logStep cfg) (logInit zero disk) tr t) (disciplined : Disciplined cfg tr)
    (separate : ∀ q ∈ tr, Separate cfg q.1 q.2) : Mirror cfg (contentsAfter cfg disk tr) t ∧
      ∀ block, ¬ cfg.InLog block → contentsAfter cfg disk tr block = userContentsAfter disk tr block := by
  induction run with
  | start => exact ⟨⟨.nil, fun _ => ⟨nofun, nofun⟩⟩, fun _ _ => rfl⟩
  | @next tr t t' ev run taken ih =>
    have before : Disciplined cfg tr := by
      rintro pre u p b post rfl
      exact disciplined pre u p b (post ++ [(t, ev)]) (by simp)
    obtain ⟨mirror, equal⟩ := ih before fun q member => separate q (List.mem_append_left _ member)
    obtain ⟨_, ref, commits⟩ := run_refines run before
    have here := separate (t, ev) (by simp)
    obtain ⟨mirror', invisible⟩ := logStep_mirror ref commits mirror here taken
    rw [contentsAfter_snoc, userContentsAfter_snoc]
    exact ⟨mirror', fun block out => (invisible block out).trans (userContents_congr (equal block out))⟩

/-- **The buffer cache refines a flat store of blocks.** In every run in which every modification is followed by
`log_write` or `bwrite` before `brelse`, each `bread` of a block that returns, returns a buffer of the process with
the last modification of that block, or what was on the disk at the start. If processes modify blocks inside of
operations and stay out of the log, the stores of `commit` need not be counted. -/
theorem bread_last_modification (run : Run (logStep cfg) (logInit zero disk) tr t) (disciplined : Disciplined cfg tr)
    {pre post : List (LogState P D × LogEvent P D)} {dev sector : BitVec 32}
    (within : tr = pre ++ (u, .bio (.advance p)) :: post) (reading : u.bio.call p = .bread dev sector b)
    (taken : logStep cfg u (.bio (.advance p)) = some t') (returned : t'.bio.call p = .idle) :
    b ∈ t'.bio.held p ∧ (t'.bio.cache.buf b).data = contentsAfter cfg disk pre (dev, sector) ∧
      ((∀ q ∈ pre, Separate cfg q.1 q.2) → ¬ cfg.InLog (dev, sector) →
        (t'.bio.cache.buf b).data = userContentsAfter disk pre (dev, sector)) := by
  subst within
  have reached := run.around.1
  have before : Disciplined cfg pre := by
    rintro pre' v q b' post' rfl
    exact disciplined pre' v q b' (post' ++ (u, .bio (.advance p)) :: post) (by simp)
  have next : Disciplined cfg (pre ++ [(u, .bio (.advance p))]) := by
    intro pre' v q b' post' split
    refine disciplined pre' v q b' (post' ++ post) ?_
    rw [List.append_cons, split]
    simp
  obtain ⟨_, ref, _⟩ := run_refines (reached.next taken) next
  obtain ⟨l, inv⟩ := run_bio_inv reached
  rw [logStep_advance] at taken
  obtain ⟨bio, stepped, rfl⟩ := Option.map_eq_some_iff.1 taken
  have knows := inv.calls p
  rw [reading] at knows
  have owned : b ∈ bio.held p := ((step_effect inv stepped).kept b knows.1).resolve_right (by simp [Event.proc, reading])
  have key : bio.key b = (dev, sector) :=
    (step_key inv stepped b (.inl ((inv.busy b).2 ⟨p, knows.1⟩))).trans knows.2
  have data : (bio.cache.buf b).data = contentsAfter cfg disk pre (dev, sector) := by
    have cached : (bio.cache.buf b).data = contentsAfter cfg disk _ (bio.key b) := (ref.bufs b).cached (ref.valid_of_idle returned owned)
    rw [key, contentsAfter_snoc] at cached
    exact cached
  refine ⟨owned, data, fun separate out => ?_⟩
  rw [data]
  exact (run_mirror reached before separate).2 _ out

/-- The discipline, checked from the first step to the last. -/
def keepsDiscipline (cfg : Layout D) (m : BufPtr → Bool) : List (LogState P D × LogEvent P D) → Bool
  | [] => true
  | (t, ev) :: tr => (match ev with | .bio (.brelse _ b) => !m b | _ => true) && keepsDiscipline cfg (t.marks cfg m ev) tr

theorem disciplined_of_keeps (keeps : keepsDiscipline cfg (fun _ => false) tr = true) : Disciplined cfg tr := by
  have general (m : BufPtr → Bool) (pre : List (LogState P D × LogEvent P D)) (t : LogState P D) (p : P) (b : BufPtr)
      (post : List (LogState P D × LogEvent P D))
      (keeps : keepsDiscipline cfg m (pre ++ (t, .bio (.brelse p b)) :: post) = true) :
      pre.foldl (fun m q => q.1.marks cfg m q.2) m b = false := by
    induction pre generalizing m with
    | nil => simpa [keepsDiscipline] using (Bool.and_eq_true_iff.1 keeps).1
    | cons q pre ih => exact ih _ (Bool.and_eq_true_iff.1 keeps).2
  rintro pre t p b post rfl
  exact general _ pre t p b post keeps

end

/-! ## A block that leaves the cache and comes back -/

/-- The disk of `mkfs` with numbers as blocks; the header block is the number of entries. -/
def numberDisk : Layout Nat := ⟨1024, 994, 30, fun sectors _ => sectors.length⟩

/-- A `bread` of block `x` that misses, up to its return. -/
def fetch (p : Fin 2) (x : Nat) : List (LogEvent (Fin 2) Nat) :=
  .bio (.bread p 1 (BitVec.ofNat 32 x)) :: List.replicate 34 (.bio (.advance p))

/-- Process 1 reads a block into the buffer `b` and releases it. -/
def pass (b : BufPtr) : List (LogEvent (Fin 2) Nat) :=
  fetch 1 (200 + b) ++ [.bio (.brelse 1 b), .bio (.advance 1)]

/-- A line of `commit` by process 0 and the steps inside of `bio.c` that its call takes. -/
def line (inside : Nat) : List (LogEvent (Fin 2) Nat) := .commit 0 :: List.replicate inside (.bio (.advance 0))

/-- Process 0 stores 7 in block 100 and its operation commits; process 1 then reads as many other blocks as it
takes for block 100 to leave the cache, and calls `bread` for it, up to the read of the disk. -/
def writeCommitRead : List (LogEvent (Fin 2) Nat) :=
  [[.beginOp 0], fetch 0 100, [.bio (.store 0 0 7), .logWrite 0 0, .bio (.brelse 0 0), .bio (.advance 0), .endOp 0],
    [34, 3, 0, 1, 1, 1, 0, 34, 0, 1, 1, 4, 5, 0, 1, 1, 1, 0, 5, 0, 1, 1, 0].flatMap line,
    ((List.finRange NBUF).drop 3 ++ [1, 0]).flatMap pass,
    (fetch 1 100).take 34].flatten

/-- The read returns what was stored before the block left the cache. -/
theorem bread_last_modification_evicted : ∃ pre u t', Run (logStep numberDisk) (logInit 0 fun _ => 0) pre u ∧
    u.bio.call (1 : Fin 2) = .bread 1 100 2 ∧ logStep numberDisk u (.bio (.advance 1)) = some t' ∧
    (t'.bio.cache.buf 2).data = userContentsAfter (fun _ => 0) pre (1, 100) ∧
    userContentsAfter (fun _ => 0) pre (1, 100) = 7 := by
  have final : (exec (logStep numberDisk) (logInit 0 fun _ => 0) writeCommitRead).bind (fun u =>
      (logStep numberDisk u (.bio (.advance 1))).map fun t' => (u.bio.call 1, t'.bio.call 1)) =
        some (.bread 1 100 2, .idle) := by decide +kernel
  have checked : keepsDiscipline numberDisk (fun _ => false) (record (logStep numberDisk) (logInit 0 fun _ => 0)
        (writeCommitRead ++ [.bio (.advance 1)])) = true ∧
      (∀ q ∈ record (logStep numberDisk) (logInit 0 fun _ => 0) writeCommitRead, Separate numberDisk q.1 q.2) ∧
      userContentsAfter (fun _ => 0) (record (logStep numberDisk) (logInit 0 fun _ => 0) writeCommitRead) (1, 100) = 7 ∧
      ¬ numberDisk.InLog (1, 100) := by decide +kernel
  obtain ⟨u, done, after⟩ := Option.bind_eq_some_iff.1 final
  obtain ⟨t', taken, seen⟩ := Option.map_eq_some_iff.1 after
  obtain ⟨reading, returned⟩ := Prod.mk.inj seen
  obtain ⟨kept, separate, seven, outside⟩ := checked
  have last : record (logStep numberDisk) u [.bio (.advance (1 : Fin 2))] = [(u, .bio (.advance 1))] := by
    simp [record, taken]
  rw [record_append done, last] at kept
  have run := run_of_exec done
  obtain ⟨_, _, data⟩ := bread_last_modification (run.next taken) (disciplined_of_keeps kept) rfl reading taken returned
  exact ⟨_, u, t', run, reading, taken, data separate outside, seven⟩

end Xv6.Bio
