import Xv6.Bio.Pinned

/-!
# Running out of buffers

A buffer is taken because a process holds it or because `log.lh` pins its block. As
long as these are fewer than `NBUF` whenever a search misses, `bget` finds a buffer:
while it holds `bcache.lock` no other process can take one or give one back. The log
protocol does not see to that, since `NBUF` is the size of the log: blocks pinned by
admitted operations and one reader's buffer are enough to leave none for the commit.
-/

namespace Xv6.Bio

open Xv6.Lib

variable {P D : Type} {disksize : Nat} {s s' : State P D} {l : List BufPtr} {e : Event P D} {p q : P}

/-- Some buffer can be recycled. -/
def Room (s : State P D) : Prop := ∃ b, ¬ s.Taken b

/-- `bget` in process `p` has searched the whole list for its block. -/
def Missed (s : State P D) (p : P) : Bool := match s.call p with
  | .scan _ _ none => true
  | _ => false

/-- While the second loop runs there is room, and it has not run out. -/
def Supplied (s : State P D) (p : P) : Prop :=
  (∀ dev sector cur, s.call p = .recycle dev sector cur → Room s) ∧ s.call p ≠ .panic .noBuffers

theorem Room.of_cache (room : Room s) (cache : s'.cache = s.cache) : Room s' := by
  unfold Room State.Taken State.busy State.dirty at *
  rw [cache]
  exact room

/-- Writing to a buffer that is held takes no other one. -/
theorem Room.touch (room : Room s) (inv : Inv s l) {b : BufPtr} (owned : b ∈ s.held p) (f : Buf D → Buf D) :
    Room (s.modify b f) := by
  obtain ⟨b', free⟩ := room
  have ne : b' ≠ b := by
    rintro rfl
    exact free (.inl ((inv.busy b').2 ⟨p, owned⟩))
  refine ⟨b', ?_⟩
  unfold State.Taken State.busy State.dirty at *
  rwa [State.modify, Cache.modify_buf_ne ne]

/-- A process that the step does not move stays supplied, if the room is kept while it is in the second loop. -/
theorem Supplied.keep (supplied : Supplied s p) (call : s'.call p = s.call p)
    (room : ∀ dev sector cur, s.call p = .recycle dev sector cur → Room s → Room s') : Supplied s' p := by
  unfold Supplied
  rw [call]
  exact ⟨fun dev sector cur at_ => room dev sector cur at_ (supplied.1 dev sector cur at_), supplied.2⟩

/-- A call that is neither in the second loop nor the panic. -/
theorem Supplied.of_call {c : Call} (at_ : s.call p = c) (loop : ∀ dev sector cur, c ≠ .recycle dev sector cur)
    (panic : c ≠ .panic .noBuffers) : Supplied s p := by
  unfold Supplied
  rw [at_]
  exact ⟨fun dev sector cur h => absurd h (loop dev sector cur), panic⟩

variable [DecidableEq P]

/-- **A step keeps the processes supplied**, if a `bget` that has missed finds room. -/
theorem step_supplied (inv : Inv s l) (supplied : ∀ q, Supplied s q)
    (room : ∀ p, e = .advance p → Missed s p = true → Room s) (taken : step disksize s e = some s') (q : P) :
    Supplied s' q := by
  cases step_shape inv taken with
  | @move c c' lock at_ goes =>
    rcases eq_or_ne q e.proc with rfl | ne
    · have now : (s.setCall e.proc c').call e.proc = c' := setCall_self ..
      have before := supplied e.proc
      have ok := inv.calls e.proc
      unfold Supplied at before
      rw [at_] at before ok
      cases goes with
      | miss inside =>
        have supply := room e.proc inside (by rw [Missed, at_])
        exact ⟨fun _ _ _ _ => supply.of_cache rfl, by rw [show State.call _ _ = _ from now]; simp⟩
      | back => exact ⟨fun _ _ _ _ => (before.1 _ _ _ rfl).of_cache rfl, by rw [show State.call _ _ = _ from now]; simp⟩
      | out =>
        -- at the end of the list every buffer has been passed
        obtain ⟨b, free⟩ := before.1 _ _ _ rfl
        obtain ⟨_, _, passed, after, split, here, full⟩ := ok
        have empty : after = [] := List.head?_eq_none_iff.1 here.symm
        have member : b ∈ l.reverse := by simpa using inv.all b
        exact absurd (full b (by simpa [split, empty] using member)) free
      | fails other => exact .of_call now (by simp) (by simpa using other)
      | _ => exact .of_call now (by simp) (by simp)
    · exact (supplied q).keep (setCall_ne c' ne) fun _ _ _ _ room => room.of_cache rfl
  | touch b f call disk others owned own =>
    have touched {t : State P D} (cache : t.cache = (s.modify b f).cache) (room : Room s) : Room t :=
      (room.touch inv owned f).of_cache cache
    rcases eq_or_ne q e.proc with rfl | ne
    · rcases own with idle | ⟨writes, _⟩
      · exact .of_call idle (by simp) (by simp)
      · exact .of_call writes (by simp) (by simp)
    · exact (supplied q).keep (others q ne) fun _ _ _ _ => touched rfl
  | obtain b f dev sector free searching =>
    -- the process that gets the buffer is the only one in a loop
    have mine : s.lock = some e.proc := by
      have ok := inv.calls e.proc
      obtain ⟨cur, at_ | at_⟩ := searching <;> rw [at_] at ok <;> exact ok.1
    rcases eq_or_ne q e.proc with rfl | ne
    · exact .of_call (obtains_call ..) (by simp) (by simp)
    · refine (supplied q).keep (Function.update_of_ne ne ..) ?_
      intro dev sector cur at_ _
      have ok := inv.calls q
      rw [at_] at ok
      exact absurd (Option.some.inj (ok.1.symm.trans mine)) ne
  | release b _ free =>
    rcases eq_or_ne q e.proc with rfl | ne
    · exact .of_call (c := .idle) (by simp [State.brelse]) (by simp) (by simp)
    · have woken : (s.brelse e.proc b).call q = State.wakeup b (s.call q) := by simp [State.brelse, ne]
      have outside : ∀ dev sector cur, s.call q ≠ .recycle dev sector cur := by
        intro dev sector cur at_
        have ok := inv.calls q
        rw [at_] at ok
        cases free.symm.trans ok.1
      refine .of_call woken ?_ ?_
      · intro dev sector cur
        unfold State.wakeup
        split
        · split_ifs <;> simp
        · exact outside dev sector cur
      · unfold State.wakeup
        split
        · split_ifs <;> simp
        · exact (supplied q).2

/-! ## Runs of the log protocol -/

variable {cfg : Layout D} {t t' : LogState P D} {tr : List (LogState P D × LogEvent P D)}

/-- If this step is the end of a search that has missed, there is room. -/
def Roomy (t : LogState P D) (e : LogEvent P D) : Prop := ∀ p, e = .bio (.advance p) → Missed t.bio p = true → Room t.bio

theorem logStep_supplied {e : LogEvent P D} (inv : Inv t.bio l) (supplied : ∀ q, Supplied t.bio q) (roomy : Roomy t e)
    (taken : logStep cfg t e = some t') : (∃ l', Inv t'.bio l') ∧ ∀ q, Supplied t'.bio q := by
  rcases logStep_below taken with ⟨_, same⟩ | ⟨f, below, stepped⟩
  · rw [same]
    exact ⟨⟨l, inv⟩, supplied⟩
  · refine ⟨step_inv inv stepped, step_supplied inv supplied ?_ stepped⟩
    rintro p rfl missed
    exact roomy p (below_advance below) missed

theorem run_supplied {zero : D} {disk : BitVec 32 → D} (run : Run (logStep cfg) (logInit zero disk) tr t)
    (roomy : ∀ q ∈ tr, Roomy q.1 q.2) (p : P) : Supplied t.bio p := by
  have both : (∃ l, Inv t.bio l) ∧ ∀ q, Supplied t.bio q := by
    refine run.invariant Roomy (fun t => (∃ l, Inv t.bio l) ∧ ∀ q, Supplied t.bio q) ?_ ?_ roomy
    · exact ⟨⟨_, init_inv zero disk⟩, fun q => .of_call (c := .idle) rfl nofun nofun⟩
    · rintro t e t' ⟨⟨l, inv⟩, supplied⟩ roomy taken
      exact logStep_supplied inv supplied roomy taken
  exact both.2 p

/-! ## Counting the buffers that are taken -/

section
variable [Fintype P]

omit [DecidableEq P] in
/-- Blocks in `log.lh` and buffers in the hands of processes. -/
def LogState.needs (t : LogState P D) : Nat := t.sector.length + ∑ p, (t.bio.held p).length

/-- If this step is the end of a search that has missed, the blocks in the log and the buffers held are fewer
than `NBUF`. -/
def Fits (t : LogState P D) : LogEvent P D → Prop
  | .bio (.advance p) => Missed t.bio p = true → t.needs < NBUF
  | _ => True

omit [DecidableEq P] in
/-- The busy buffers are held by processes. -/
theorem card_busy_le (inv : Inv s l) : (Finset.univ.filter fun b => s.busy b = true).card ≤ ∑ p, (s.held p).length := by
  calc (Finset.univ.filter fun b => s.busy b = true).card
      ≤ (Finset.univ.biUnion fun p => (s.held p).toFinset).card := by
        refine Finset.card_le_card fun b busy => ?_
        simpa [inv.busy b] using busy
    _ ≤ ∑ p, (s.held p).toFinset.card := Finset.card_biUnion_le
    _ ≤ ∑ p, (s.held p).length := Finset.sum_le_sum fun p _ => List.toFinset_card_le _

omit [DecidableEq P] [Fintype P] in
/-- The other dirty buffers hold different blocks of `log.lh`. -/
theorem card_pinned_le (inv : Inv t.bio l) (pinned : Pinned t.Logged t.bio) :
    (Finset.univ.filter fun b => t.bio.busy b = false ∧ t.bio.dirty b = true).card ≤ t.sector.length := by
  have logged {b : BufPtr} (free : t.bio.busy b = false) (dirty : t.bio.dirty b = true) : t.Logged (t.bio.key b) := by
    rcases pinned.dirty b dirty with logged | ⟨q, owned, _⟩
    · exact logged
    · cases free.symm.trans ((inv.busy b).2 ⟨q, owned⟩)
  refine le_trans (Finset.card_le_card_of_injOn (fun b => (t.bio.cache.buf b).sector) ?_ ?_) (List.toFinset_card_le t.sector)
  · intro b member
    obtain ⟨free, dirty⟩ := (Finset.mem_filter.1 member).2
    obtain ⟨_, i, entry, _⟩ := logged free dirty
    exact List.mem_toFinset.2 (List.mem_of_getElem? entry)
  · intro b member b' member' same
    obtain ⟨free, dirty⟩ := (Finset.mem_filter.1 member).2
    obtain ⟨free', dirty'⟩ := (Finset.mem_filter.1 member').2
    have device : (t.bio.cache.buf b).dev = ROOTDEV := (logged free dirty).1
    refine inv.unique b b' (by rw [device]; decide) (Prod.ext (device.trans (logged free' dirty').1.symm) same)

omit [DecidableEq P] in
/-- **Fewer buffers than there are**: one of them can be recycled. -/
theorem room_of_needs (inv : Inv t.bio l) (pinned : Pinned t.Logged t.bio) (few : t.needs < NBUF) : Room t.bio := by
  by_contra full
  simp only [Room, not_exists, not_not] at full
  have split : (Finset.univ : Finset BufPtr) = (Finset.univ.filter fun b => t.bio.busy b = true) ∪
      Finset.univ.filter fun b => t.bio.busy b = false ∧ t.bio.dirty b = true := by
    ext b
    cases busy : t.bio.busy b with
    | true => simp [busy]
    | false => simpa [State.Taken, busy] using full b
  have all : NBUF ≤ _ := calc
    NBUF = (Finset.univ : Finset BufPtr).card := (Finset.card_fin NBUF).symm
    _ ≤ _ := split ▸ Finset.card_union_le _ _
  have held := card_busy_le inv
  have logged := card_pinned_le inv pinned
  unfold LogState.needs at few
  omega

/-- **The cache is large enough** for a run in which, whenever the search of `bget` misses, the blocks in `log.lh`
and the buffers held by processes are together fewer than `NBUF`: `bget` does not run out of buffers. -/
theorem buffers_suffice {zero : D} {disk : BitVec 32 → D} (run : Run (logStep cfg) (logInit zero disk) tr t)
    (fits : ∀ q ∈ tr, Fits q.1 q.2) : ∀ u ∈ visited tr t, ∀ p, u.bio.call p ≠ .panic .noBuffers := by
  intro u member p
  obtain ⟨pre, rest, rfl, reached⟩ := run.prefix_of_visited member
  refine (run_supplied reached ?_ p).2
  rintro ⟨v, e⟩ inside p rfl missed
  obtain ⟨_, _, _, before⟩ := reached.prefix_of_visited (mem_visited.2 (.inl ⟨_, inside⟩))
  obtain ⟨l, inv, known⟩ := run_known before
  exact room_of_needs inv known.pinned (fits _ (List.mem_append_left _ inside) missed)

end

/-! ## Twenty-nine pinned blocks and a reader -/

instance [Fintype P] (t : LogState P D) : (e : LogEvent P D) → Decidable (Fits t e)
  | .bio (.advance p) => inferInstanceAs (Decidable (Missed t.bio p = true → t.needs < NBUF))
  | .bio (.bread ..) | .bio (.kill _) | .bio (.store ..) | .bio (.pin ..) | .bio (.bwrite ..) | .bio (.brelse ..)
  | .beginOp _ | .endOp _ | .logWrite .. | .commit _ => .isTrue trivial

/-- The sectors that `p` logs in the run, each once. -/
def loggedBy (tr : List (LogState P D × LogEvent P D)) (p : P) : List (BitVec 32) :=
  (tr.filterMap fun q => match q.2 with
    | .logWrite r b => if r = p then some (q.1.bio.cache.buf b).sector else none
    | _ => none).dedup

omit [DecidableEq P] in
/-- A process outside of any transaction holds at most one buffer: it reads only when it holds none. -/
def ReadsOne (t : LogState P D) : LogEvent P D → Prop
  | .bio (.bread p _ _) => t.prog p = .out → t.bio.held p = []
  | _ => True

instance (t : LogState P D) : (e : LogEvent P D) → Decidable (ReadsOne t e)
  | .bio (.bread p _ _) => inferInstanceAs (Decidable (t.prog p = .out → t.bio.held p = []))
  | .bio (.advance _) | .bio (.kill _) | .bio (.store ..) | .bio (.pin ..) | .bio (.bwrite ..) | .bio (.brelse ..)
  | .beginOp _ | .endOp _ | .logWrite .. | .commit _ => .isTrue trivial

/-- The disk of `mkfs`, block contents left out. -/
def smallDisk : Layout Unit := ⟨1024, 994, 30, fun _ _ => ()⟩

/-- Process `p` reads block `x` into buffer `b`, which is the least recently used one. -/
def reads (p : Fin 4) (x : Nat) : List (LogEvent (Fin 4) Unit) :=
  .bio (.bread p 1 (BitVec.ofNat 32 x)) :: List.replicate 34 (.bio (.advance p))

/-- Process `p` reads block `100 + i`, modifies and logs it and releases it. -/
def logs (p : Fin 4) (i : BufPtr) : List (LogEvent (Fin 4) Unit) :=
  reads p (100 + i) ++ [.bio (.store p i ()), .logWrite p i, .bio (.brelse p i), .bio (.advance p)]

/-- Three operations log ten, ten and `n` blocks; process 3 reads another block and keeps it; the operations
end, and the last one's commit asks for the first log block. -/
def pinnedAndRead (n inside : Nat) : List (LogEvent (Fin 4) Unit) :=
  [[.beginOp 0, .beginOp 1, .beginOp 2],
    ((List.finRange NBUF).take 10).flatMap (logs 0),
    (((List.finRange NBUF).drop 10).take 10).flatMap (logs 1),
    (((List.finRange NBUF).drop 20).take n).flatMap (logs 2),
    reads 3 200,
    [.endOp 0, .endOp 1, .endOp 2, .commit 2],
    List.replicate inside (.bio (.advance 2))].flatten

/-- Every operation logs at most `MAXOPBLOCKS` blocks and every reader holds at most one buffer, and the commit
panics. -/
theorem commit_no_buffers : ∃ tr t, Run (logStep smallDisk) (logInit () fun _ => ()) tr t ∧
    (∀ p : Fin 4, (loggedBy tr p).length ≤ MAXOPBLOCKS) ∧ (∀ q ∈ tr, ReadsOne q.1 q.2) ∧
    t.bio.call 2 = .panic .noBuffers := by
  have final : (exec (logStep smallDisk) (logInit () fun _ => ()) (pinnedAndRead 9 63)).map (fun t => t.bio.call 2) =
      some (.panic .noBuffers) := by decide +kernel
  obtain ⟨t, done, panicked⟩ := Option.map_eq_some_iff.1 final
  have modest : (∀ p : Fin 4, (loggedBy (record (logStep smallDisk) (logInit () fun _ => ()) (pinnedAndRead 9 63)) p).length ≤ MAXOPBLOCKS) ∧
      ∀ q ∈ record (logStep smallDisk) (logInit () fun _ => ()) (pinnedAndRead 9 63), ReadsOne q.1 q.2 := by decide +kernel
  exact ⟨_, t, run_of_exec done, modest.1, modest.2, panicked⟩

/-- With twenty-eight pinned blocks, beside the reader's buffer one is left, and the commit gets it. -/
theorem buffers_suffice_twentyEight : ∃ tr t, Run (logStep smallDisk) (logInit () fun _ => ()) tr t ∧
    (∀ q ∈ tr, Fits q.1 q.2) ∧ t.sector.length = 28 ∧ t.bio.held (3 : Fin 4) = [28] ∧ t.bio.held 2 = [29] ∧
    ∀ u ∈ visited tr t, ∀ p, u.bio.call p ≠ .panic .noBuffers := by
  have final : (exec (logStep smallDisk) (logInit () fun _ => ()) (pinnedAndRead 8 35)).map
      (fun t => (t.sector.length, t.bio.held (3 : Fin 4), t.bio.held 2)) = some (28, [28], [29]) := by decide +kernel
  obtain ⟨t, done, seen⟩ := Option.map_eq_some_iff.1 final
  have fits : ∀ q ∈ record (logStep smallDisk) (logInit () fun _ => ()) (pinnedAndRead 8 35), Fits q.1 q.2 := by
    decide +kernel
  obtain ⟨pinned, reader, commit⟩ : t.sector.length = 28 ∧ t.bio.held 3 = [28] ∧ t.bio.held 2 = [29] := by
    simpa using seen
  exact ⟨_, t, run_of_exec done, fits, pinned, reader, commit, buffers_suffice (run_of_exec done) fits⟩

end Xv6.Bio
