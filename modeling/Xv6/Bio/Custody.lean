import Xv6.Bio.Refine

/-!
# The buffers in the hands of a process

Between two of its calls into the cache a process knows which buffers are in its
hands, what their blocks are and whether they have been logged: the steps of the
other processes do not interfere, nor do its own steps inside of `bio.c`.
-/

namespace Xv6.Bio

open Xv6.Lib

variable {P D : Type} {disksize : Nat} {s s' : State P D} {l : List BufPtr} {e : Event P D} {p q : P} {b : BufPtr}
  {m m' : BufPtr → Bool}

/-! ## Between two calls of one process -/

/-- A process whose `bread` of the block `want` is on its way or has returned. `others` is what it knows of the
buffers that it held before. -/
def Fetching (s : State P D) (m : BufPtr → Bool) (p : P) (want : Block) (others : List BufPtr → Prop) : Prop :=
  match s.call p with
  | .bget dev sector | .scan dev sector _ | .recycle dev sector _ | .asleep dev sector _ =>
    (dev, sector) = want ∧ others (s.held p)
  | .bread dev sector b => (dev, sector) = want ∧ ∃ rest, s.held p = b :: rest ∧ m b = false ∧ others rest
  | .idle => ∃ b rest, s.held p = b :: rest ∧ s.key b = want ∧ m b = false ∧ others rest
  | .panic _ => True
  | .bwrite _ | .brelse _ => False

/-- The steps of other processes do not interfere. -/
theorem Fetching.frame {want : Block} {others : List BufPtr → Prop} (frame : Frame p s m s' m')
    (fetching : Fetching s m p want others) : Fetching s' m' p want others := by
  unfold Fetching at *
  rcases frame.call with same | ⟨dev, sector, b, slept, woke⟩
  · rw [same]
    cases at_ : s.call p with
    | bget | scan | recycle | asleep =>
      rw [at_] at fetching
      exact ⟨fetching.1, by rw [frame.held]; exact fetching.2⟩
    | bread dev sector b =>
      rw [at_] at fetching
      obtain ⟨block, rest, held, mark, others⟩ := fetching
      exact ⟨block, rest, by rw [frame.held]; exact held, frame.mark b (by simp [held]) mark, others⟩
    | idle =>
      rw [at_] at fetching
      obtain ⟨b, rest, held, key, mark, others⟩ := fetching
      have owned : b ∈ s.held p := by simp [held]
      exact ⟨b, rest, by rw [frame.held]; exact held, (congrArg Buf.key (frame.buf b owned)).trans key, frame.mark b owned mark, others⟩
    | panic => trivial
    | bwrite | brelse =>
      rw [at_] at fetching
      exact fetching
  · rw [slept] at fetching
    rw [woke]
    exact ⟨fetching.1, by rw [frame.held]; exact fetching.2⟩

section
variable [DecidableEq P]

theorem obtains_held (s : State P D) (p : P) (dev sector : BitVec 32) (b : BufPtr) :
    (s.obtains p dev sector b).held p = b :: s.held p := Function.update_self ..

/-- The process itself goes on, or is woken. -/
theorem Fetching.onward {want : Block} {others : List BufPtr → Prop} (inv : Inv s l)
    (logged : ∀ b, s.busy b = false → m b = false) (fetching : Fetching s m e.proc want others)
    (taken : step disksize s e = some s') (inside : e = .advance e.proc ∨ e = .kill e.proc) :
    Fetching s' m e.proc want others := by
  have busy : s.call e.proc ≠ .idle := by
    intro idle
    rcases inside with same | same <;> rw [same] at taken <;> simp [step, idle] at taken
  have knows := inv.calls e.proc
  unfold Fetching at fetching
  cases step_shape inv taken with
  | @move c c' lock at_ goes =>
    unfold Fetching
    rw [show State.call _ e.proc = c' from setCall_self ..]
    rw [at_] at fetching knows busy
    cases goes with
    | call | release => exact absurd rfl busy
    | cached =>
      obtain ⟨block, rest, held, mark, others⟩ := fetching
      exact ⟨_, rest, held, knows.2.trans block, mark, others⟩
    | out | fails => trivial
    | acquire | next | sleep | wake | miss | back => exact fetching
  | touch b f call disk _ _ own key _ at_ =>
    have key : (s.modify b f).key b = s.key b := Cache.modify_data f Buf.key key b
    rcases at_ with ⟨idle, _⟩ | ⟨writes | ⟨dev, sector, reads⟩, _⟩
    · exact absurd idle busy
    · rw [writes] at fetching
      exact fetching.elim
    · rw [reads] at fetching knows
      obtain ⟨block, rest, held, mark, others⟩ := fetching
      rcases own with idle | ⟨_, asked⟩
      · unfold Fetching
        rw [show State.call _ e.proc = .idle from idle]
        exact ⟨b, rest, held, (key.trans knows.2).trans block, mark, others⟩
      · rcases inside with same | same <;> rw [same] at asked <;> cases asked
  | obtain b f dev sector free searching =>
    unfold Fetching
    rw [obtains_call, obtains_held]
    obtain ⟨cur, at_ | at_⟩ := searching <;> rw [at_] at fetching <;>
      exact ⟨fetching.1, _, rfl, logged b free, fetching.2⟩
  | release b at_ =>
    rw [at_] at fetching
    exact fetching.elim

/-- A call of `bread`. -/
theorem Fetching.start {dev sector : BitVec 32} {others : List BufPtr → Prop} (known : others (s.held p))
    (taken : step disksize s (.bread p dev sector) = some s') : Fetching s' m p (dev, sector) others := by
  simp only [step] at taken
  split_ifs at taken
  cases taken
  unfold Fetching
  rw [setCall_self]
  exact ⟨rfl, known⟩

/-! ## What a step does to a buffer -/

def State.Panicked (s : State P D) (p : P) : Prop := ∃ why, s.call p = .panic why

/-- What a step does to the flags, the blocks and the owner of a buffer. -/
structure Effect (s : State P D) (e : Event P D) (s' : State P D) : Prop where
  /-- `B_DIRTY` is set in `log_write` and in `bwrite`, and `iderw` clears it unless it panics -/
  dirty : ∀ b, s'.dirty b = true → s.dirty b = true ∧ (s.call e.proc = .bwrite b → s'.Panicked e.proc) ∨
    b ∈ s.held e.proc ∧ (e = .pin e.proc b ∨ e = .bwrite e.proc b ∧ s'.call e.proc = .bwrite b)
  /-- `B_VALID` is set in `iderw`, which panics if the device is not the disk -/
  valid : ∀ b, s'.valid b = true → s.valid b = true ∧ s'.key b = s.key b ∨ (s'.cache.buf b).dev = 1
  read : ∀ dev sector b, s.call e.proc = .bread dev sector b →
    s'.Panicked e.proc ∨ s.valid b = true ∨ (s.cache.buf b).dev = 1
  held : ∀ b ∈ s'.held e.proc, b ∈ s.held e.proc ∨ ∃ dev sector, s'.call e.proc = .bread dev sector b
  kept : ∀ b ∈ s.held e.proc, b ∈ s'.held e.proc ∨ s.call e.proc = .brelse b
  releases : ∀ b, s'.call e.proc = .brelse b → e = .brelse e.proc b

/-- **What a step does** to the held buffers and the flags. -/
theorem step_effect (inv : Inv s l) (taken : step disksize s e = some s') : Effect s e s' := by
  cases step_shape inv taken with
  | @move c c' lock at_ goes =>
    have panics {why : Panic} (h : c' = .panic why) : (s.setCall e.proc c').Panicked e.proc := ⟨why, (setCall_self ..).trans h⟩
    refine ⟨fun b h => .inl ⟨h, fun writes => ?_⟩, fun b h => .inl ⟨h, rfl⟩, fun dev sector b reads => ?_, fun _ => .inl,
      fun _ => .inl, fun b releases => ?_⟩
    · cases at_.symm.trans writes
      cases goes
      exact panics rfl
    · cases at_.symm.trans reads
      cases goes with
      | cached valid => exact .inr (.inl valid)
      | fails => exact .inl (panics rfl)
    · cases (setCall_self s e.proc c').symm.trans releases
      cases goes
      assumption
  | touch b f call disk others owned own key dirty at_ =>
    have buf (b' : BufPtr) : (s.modify b f).cache.buf b' = if b' = b then f (s.cache.buf b) else s.cache.buf b' :=
      Cache.modify_buf f b'
    refine ⟨fun b' => ?_, fun b' => ?_, fun dev sector b' h => ?_, fun _ => .inl, fun _ => .inl, fun b' h => ?_⟩
    · simp only [State.dirty, buf]
      split_ifs with same
      · subst same
        intro h
        rcases dirty h with ⟨old, idle⟩ | set
        · exact .inl ⟨old, by simp [idle]⟩
        · exact .inr ⟨owned, set⟩
      · refine fun h => .inl ⟨h, fun writes => ?_⟩
        rcases at_ with ⟨idle, _⟩ | ⟨writing | ⟨dev, sector, reading⟩, _⟩
        · cases idle.symm.trans writes
        · cases writing.symm.trans writes
          exact absurd rfl same
        · cases reading.symm.trans writes
    · have keys : (s.modify b f).key b' = s.key b' := Cache.modify_data f Buf.key key b'
      simp only [State.valid, buf]
      split_ifs with same
      · subst same
        rcases at_ with ⟨_, valid⟩ | ⟨_, device⟩
        · rw [valid]
          exact fun h => .inl ⟨h, keys⟩
        · exact fun _ => .inr ((congrArg Prod.fst key).trans device)
      · exact fun h => .inl ⟨h, keys⟩
    · rcases at_ with ⟨idle, _⟩ | ⟨writing | ⟨_, _, reading⟩, device⟩
      · cases idle.symm.trans h
      · cases writing.symm.trans h
      · cases reading.symm.trans h
        exact .inr (.inr device)
    · rcases own with idle | ⟨writing, _⟩
      · cases idle.symm.trans h
      · cases writing.symm.trans h
  | obtain b f dev sector free searching flags =>
    obtain ⟨cur, at_⟩ := searching
    have apart {c : Call} (h : s.call e.proc = c) : c = .scan dev sector cur ∨ c = .recycle dev sector cur := h ▸ at_
    refine ⟨fun b' => ?_, fun b' => ?_, fun _ _ _ h => by simpa using apart h, fun b' member => ?_, fun b' member => ?_, ?_⟩
    · show ((s.cache.modify b f).buf b').flags.dirty = true → _
      rw [Cache.modify_buf]
      split_ifs with same
      · subst same
        intro h
        rcases flags with ⟨_, dirty, _⟩ | ⟨_, clean, _⟩
        · exact .inl ⟨dirty ▸ h, fun writes => by simpa using apart writes⟩
        · cases clean.symm.trans h
      · exact fun h => .inl ⟨h, fun writes => by simpa using apart writes⟩
    · show ((s.cache.modify b f).buf b').flags.valid = true → _ ∧ ((s.cache.modify b f).buf b').key = _ ∨ _
      rw [Cache.modify_buf]
      split_ifs with same
      · subst same
        intro h
        rcases flags with ⟨key, _, valid⟩ | ⟨_, _, invalid⟩
        · exact .inl ⟨valid ▸ h, key⟩
        · cases invalid.symm.trans h
      · exact fun h => .inl ⟨h, rfl⟩
    · rw [obtains_held] at member
      rcases List.mem_cons.1 member with rfl | old
      · exact .inr ⟨dev, sector, obtains_call ..⟩
      · exact .inl old
    · rw [obtains_held]
      exact .inl (List.mem_cons_of_mem b member)
    · intro b' h
      rw [obtains_call] at h
      cases h
  | release b at_ =>
    have apart {c : Call} (h : s.call e.proc = c) : c = .brelse b := h.symm.trans at_
    have same {β : Type} (g : Buf D → β) (blind : ∀ r : Buf D, g { r with flags := { r.flags with busy := false } } = g r)
        (b' : BufPtr) : g ((s.brelse e.proc b).cache.buf b') = g (s.cache.buf b') := by
      unfold State.brelse
      rw [Cache.modify_data _ g (blind _)]
      rfl
    have erased : (s.brelse e.proc b).held e.proc = (s.held e.proc).erase b := Function.update_self ..
    refine ⟨fun b' h => .inl ⟨?_, fun writes => by simpa using apart writes⟩, fun b' h => .inl ⟨?_, same Buf.key (fun _ => rfl) b'⟩,
      fun _ _ _ h => by simpa using apart h, fun b' member => ?_, fun b' member => ?_, ?_⟩
    · exact (same (·.flags.dirty) (fun _ => rfl) b').symm.trans h
    · exact (same (·.flags.valid) (fun _ => rfl) b').symm.trans h
    · exact .inl (List.mem_of_mem_erase (erased ▸ member))
    · rcases eq_or_ne b' b with rfl | ne
      · exact .inr at_
      · exact .inl (erased ▸ (List.mem_erase_of_ne ne).2 member)
    · simp [State.brelse]

/-! ## Buffers in the hands of a process -/

/-- The process has the buffer and is not releasing it. -/
structure Owns (s : State P D) (p : P) (b : BufPtr) : Prop where
  held : b ∈ s.held p
  kept : s.call p ≠ .brelse b

omit [DecidableEq P] in
theorem Owns.frame (frame : Frame p s m s' m') (owns : Owns s p b) : Owns s' p b := by
  refine ⟨by rw [frame.held]; exact owns.held, ?_⟩
  rcases frame.call with same | ⟨dev, sector, b', _, woke⟩
  · rw [same]
    exact owns.kept
  · rw [woke]
    nofun

/-- The process keeps the buffer until it releases it. -/
theorem Owns.step (inv : Inv s l) (owns : Owns s p b) (taken : step disksize s e = some s') (own : e.proc = p) (away : e ≠ .brelse p b) :
    Owns s' p b := by
  subst own
  have effect := step_effect inv taken
  exact ⟨(effect.kept b owns.held).resolve_right owns.kept, fun releasing => away (effect.releases b releasing)⟩

theorem Owns.call (inv : Inv s l) (taken : Bio.step disksize s e = some s') (own : e.proc = p) (idle : s.call p = .idle)
    (owned : b ∈ s.held p) (away : e ≠ .brelse p b) : Owns s' p b :=
  Owns.step inv ⟨owned, by rw [idle]; simp⟩ taken own away

omit [DecidableEq P] in
/-- The others only wake a process. -/
theorem Frame.stuck {m m' : BufPtr → Bool} (frame : Frame p s m s' m') {c : Call} (at_ : s.call p = c)
    (awake : ∀ dev sector b, c ≠ .asleep dev sector b) : s'.call p = c := by
  rcases frame.call with same | ⟨dev, sector, b, slept, _⟩
  · exact same.trans at_
  · exact absurd (at_.symm.trans slept) (awake dev sector b)

theorem step_calm (taken : step disksize s e = some s') : ¬ s.Panicked e.proc := by
  rintro ⟨why, at_⟩
  cases e <;> simp only [Event.proc] at at_ <;> simp [step, at_] at taken

/-- The process has written the buffer, which holds the block `want`: it is clean, unless `bwrite` has not returned. -/
structure Written (s : State P D) (m : BufPtr → Bool) (p : P) (want : Block) (b : BufPtr) : Prop where
  owns : Owns s p b
  mark : m b = false
  key : s.key b = want
  clean : s.dirty b = true → s.call p = .bwrite b ∨ s.Panicked p

/-- The other processes do not write to it, nor does the process itself. -/
theorem Written.step {want : Block} (inv : Inv s l) (written : Written s m p want b) (taken : step disksize s e = some s')
    (away : e.proc = p → e = .advance p ∨ e = .kill p ∨ ∃ b' ≠ b, e = .brelse p b') : Written s' (unlogged m e) p want b := by
  have key := (step_key inv taken b (.inl ((inv.busy b).2 ⟨p, written.owns.held⟩))).trans written.key
  have effect := (step_effect inv taken).dirty b
  by_cases own : e.proc = p
  · have same : unlogged m e = m ∧ e ≠ .brelse p b ∧ e ≠ .pin p b ∧ e ≠ .bwrite p b := by
      rcases away own with rfl | rfl | ⟨b', ne, rfl⟩
      · exact ⟨rfl, by simp, by simp, by simp⟩
      · exact ⟨rfl, by simp, by simp, by simp⟩
      · exact ⟨rfl, by simp [ne], by simp, by simp⟩
    subst own
    refine ⟨written.owns.step inv taken rfl same.2.1, by rw [same.1]; exact written.mark, key, fun dirty => ?_⟩
    rcases effect dirty with ⟨old, clears⟩ | ⟨_, pins | ⟨writes, _⟩⟩
    · rcases written.clean old with writes | panicked
      · exact .inr (clears writes)
      · exact absurd panicked (step_calm taken)
    · exact absurd pins same.2.2.1
    · exact absurd writes same.2.2.2
  · have frame : Frame p s m s' (unlogged m e) := step_frame inv taken own
    refine ⟨.frame frame written.owns, frame.mark b written.owns.held written.mark, key, fun dirty => ?_⟩
    rw [State.dirty, frame.buf b written.owns.held] at dirty
    rcases written.clean dirty with writes | ⟨why, panicked⟩
    · exact .inl (frame.stuck writes (by simp))
    · exact .inr ⟨why, frame.stuck panicked (by simp)⟩

/-! ## What a process knows between its calls -/

/-- The step leaves what process `p` knows of its buffers as it is. -/
structure Keeps (p : P) (s : State P D) (m : BufPtr → Bool) (s' : State P D) (m' : BufPtr → Bool) : Prop where
  fetching : ∀ want others, Fetching s m p want others → Fetching s' m' p want others
  owns : ∀ b, Owns s p b → Owns s' p b
  key : ∀ b, Owns s p b → s'.key b = s.key b
  mark : ∀ b, Owns s p b → m b = false → m' b = false
  written : ∀ want b, Written s m p want b → Written s' m' p want b

/-- The steps of the other processes and those inside of `bio.c`. -/
theorem step_keeps (inv : Inv s l) (logged : ∀ b, s.busy b = false → m b = false) (taken : step disksize s e = some s')
    (elsewhere : e.proc ≠ p ∨ e = .advance p ∨ e = .kill p) : Keeps p s m s' (unlogged m e) := by
  have key : ∀ b, Owns s p b → s'.key b = s.key b :=
    fun b owns => step_key inv taken b (.inl ((inv.busy b).2 ⟨p, owns.held⟩))
  have written : ∀ want b, Written s m p want b → Written s' (unlogged m e) p want b :=
    fun _ _ written => written.step inv taken fun own => (elsewhere.resolve_left (not_not.2 own)).imp_right .inl
  rcases elsewhere with other | rfl | rfl
  · have frame : Frame p s m s' (unlogged m e) := step_frame inv taken other
    exact ⟨fun _ _ => .frame frame, fun _ => .frame frame, key, fun b owns => frame.mark b owns.held, written⟩
  · exact ⟨fun _ _ fetching => .onward (e := .advance p) inv logged fetching taken (.inl rfl),
      fun _ owns => owns.step inv taken rfl (by simp), key, fun _ _ => id, written⟩
  · exact ⟨fun _ _ fetching => .onward (e := .kill p) inv logged fetching taken (.inr rfl),
      fun _ owns => owns.step inv taken rfl (by simp), key, fun _ _ => id, written⟩

end

end Xv6.Bio
