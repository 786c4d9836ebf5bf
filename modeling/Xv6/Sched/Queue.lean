import Xv6.Sched.Lottery
import Xv6.Lib.DList

/-!
# What the table operations do to the queue

`Links t l` says that the queue fields of table `t` hold the list `l`. A push of
a process off the list appends it and a removal deletes it, whatever the states
of the processes are. `Ready t l` adds that every queued process is `RUNNABLE`;
it is what the operations of the kernel keep.
-/

namespace Xv6.Sched

open Xv6.Lib

section Modify

variable (t : Table) (p q : Slot) (f : Proc → Proc)

theorem modify_proc : (t.modify p f).proc q = if q = p then f (t.proc p) else t.proc q := by
  by_cases same : q = p
  · subst same; simp [Table.modify]
  · simp [Table.modify, same]

@[simp] theorem modify_first : (t.modify p f).first = t.first := rfl

@[simp] theorem modify_last : (t.modify p f).last = t.last := rfl

@[simp] theorem modify_proc_self : (t.modify p f).proc p = f (t.proc p) := by simp [modify_proc]

theorem modify_proc_ne {q : Slot} (different : q ≠ p) : (t.modify p f).proc q = t.proc q := by
  simp [modify_proc, different]

end Modify

/-- The queue fields of `t` hold the list `l`. -/
def Links (t : Table) (l : List Slot) : Prop :=
  IsDList (fun p => (t.proc p).rrnext) (fun p => (t.proc p).rrprev) t.first t.last l

/-- A modification that leaves the links alone leaves the queue alone. -/
theorem Links.modify {t : Table} {l : List Slot} (links : Links t l) (p : Slot) (f : Proc → Proc)
    (next : (f (t.proc p)).rrnext = (t.proc p).rrnext) (prev : (f (t.proc p)).rrprev = (t.proc p).rrprev) :
    Links (t.modify p f) l := by
  have sameNext : (fun q => ((t.modify p f).proc q).rrnext) = fun q => (t.proc q).rrnext := by
    funext q
    by_cases same : q = p
    · subst same; simpa using next
    · rw [modify_proc_ne t p f same]
  have samePrev : (fun q => ((t.modify p f).proc q).rrprev) = fun q => (t.proc q).rrprev := by
    funext q
    by_cases same : q = p
    · subst same; simpa using prev
    · rw [modify_proc_ne t p f same]
  unfold Links
  rw [sameNext, samePrev]
  exact links

/-- What a modification does not change, seen through `f`. -/
theorem modify_data {β : Type} (t : Table) (p q : Slot) (f : Proc → β) (g : Proc → Proc)
    (blind : f (g (t.proc p)) = f (t.proc p)) : f ((t.modify p g).proc q) = f (t.proc q) := by
  by_cases same : q = p
  · subst same; rw [modify_proc_self, blind]
  · rw [modify_proc_ne t p g same]

/-! ## Writing one link -/

section Set

variable (t : Table) (o v : Option Slot) (q : Slot)

@[simp] theorem setRrnext_first : (t.setRrnext o v).first = t.first := by cases o <;> rfl

@[simp] theorem setRrnext_last : (t.setRrnext o v).last = t.last := by cases o <;> rfl

@[simp] theorem setRrprev_first : (t.setRrprev o v).first = t.first := by cases o <;> rfl

@[simp] theorem setRrprev_last : (t.setRrprev o v).last = t.last := by cases o <;> rfl

@[simp] theorem setRrnext_rrnext : ((t.setRrnext o v).proc q).rrnext = if o = some q then v else (t.proc q).rrnext := by
  cases o with
  | none => simp [Table.setRrnext]
  | some z => by_cases same : q = z <;> simp [Table.setRrnext, modify_proc, same, eq_comm]

@[simp] theorem setRrprev_rrprev : ((t.setRrprev o v).proc q).rrprev = if o = some q then v else (t.proc q).rrprev := by
  cases o with
  | none => simp [Table.setRrprev]
  | some z => by_cases same : q = z <;> simp [Table.setRrprev, modify_proc, same, eq_comm]

/-- What a write to `rrnext` does not change, seen through `f`. -/
theorem setRrnext_data {β : Type} (f : Proc → β) (blind : ∀ r a, f { r with rrnext := a } = f r) :
    f ((t.setRrnext o v).proc q) = f (t.proc q) := by
  cases o with
  | none => rfl
  | some z => exact modify_data t z q f (fun r => { r with rrnext := v }) (blind _ _)

/-- What a write to `rrprev` does not change, seen through `f`. -/
theorem setRrprev_data {β : Type} (f : Proc → β) (blind : ∀ r a, f { r with rrprev := a } = f r) :
    f ((t.setRrprev o v).proc q) = f (t.proc q) := by
  cases o with
  | none => rfl
  | some z => exact modify_data t z q f (fun r => { r with rrprev := v }) (blind _ _)

@[simp] theorem setRrnext_rrprev : ((t.setRrnext o v).proc q).rrprev = (t.proc q).rrprev :=
  setRrnext_data t o v q Proc.rrprev fun _ _ => rfl

@[simp] theorem setRrprev_rrnext : ((t.setRrprev o v).proc q).rrnext = (t.proc q).rrnext :=
  setRrprev_data t o v q Proc.rrnext fun _ _ => rfl

end Set

/-! ## The two queue operations, field by field -/

section Operations

variable (t : Table) (p q : Slot)

theorem push_first : (pushProcToRRqueue t p).first = some (t.first.getD p) := by
  obtain ⟨proc, first, last⟩ := t
  cases first <;> cases last <;> simp [pushProcToRRqueue]

/-- A push to the empty queue stores to no process. -/
theorem push_empty (empty : t.last = none) : (pushProcToRRqueue t p).proc = t.proc := by
  obtain ⟨proc, first, last⟩ := t
  cases empty
  cases first <;> simp [pushProcToRRqueue, Table.setRrnext]

theorem push_last : (pushProcToRRqueue t p).last = some p := rfl

theorem push_rrnext : ((pushProcToRRqueue t p).proc q).rrnext =
    if t.last = some q then some p else (t.proc q).rrnext := by
  obtain ⟨proc, first, last⟩ := t
  cases first <;> cases last <;> simp [pushProcToRRqueue]

theorem push_rrprev : ((pushProcToRRqueue t p).proc q).rrprev =
    if q = p ∧ t.last ≠ none then t.last else (t.proc q).rrprev := by
  obtain ⟨proc, first, last⟩ := t
  cases first <;> cases last <;> simp [pushProcToRRqueue, eq_comm]

/-- `push` changes nothing but links. -/
theorem push_data {β : Type} (f : Proc → β) (blindNext : ∀ r a, f { r with rrnext := a } = f r)
    (blindPrev : ∀ r a, f { r with rrprev := a } = f r) :
    f ((pushProcToRRqueue t p).proc q) = f (t.proc q) := by
  obtain ⟨proc, first, last⟩ := t
  cases first <;> cases last <;> simp [pushProcToRRqueue, setRrnext_data _ _ _ _ f blindNext, setRrprev_data _ _ _ _ f blindPrev]

/-- The table after the two stores to the neighbours of `p`, before the ends and `p` itself change. -/
private def bypass (t : Table) (p : Slot) : Table :=
  let t := t.setRrnext (t.proc p).rrprev (t.proc p).rrnext
  t.setRrprev (t.proc p).rrnext (t.proc p).rrprev

private theorem bypass_rrnext (a : Slot) : ((bypass t p).proc a).rrnext =
    if (t.proc p).rrprev = some a then (t.proc p).rrnext else (t.proc a).rrnext := by
  simp [bypass]

private theorem bypass_rrprev (a : Slot) : ((bypass t p).proc a).rrprev =
    if (t.proc p).rrnext = some a then (t.proc p).rrprev else (t.proc a).rrprev := by
  simp [bypass]

private theorem remove_eq : removeProcFromRRqueue t p =
    (Table.setRrnext ⟨(bypass t p).proc, if t.first = some p then (t.proc p).rrnext else t.first,
      if t.last = some p then (t.proc p).rrprev else t.last⟩ (some p) none).setRrprev (some p) none := by
  have next : ((bypass t p).proc p).rrnext = (t.proc p).rrnext := by simp [bypass_rrnext]
  have prev : ((bypass t p).proc p).rrprev = (t.proc p).rrprev := by simp [bypass_rrprev]
  have ends : (bypass t p).first = t.first ∧ (bypass t p).last = t.last := by simp [bypass]
  change (Table.setRrnext (let t := bypass t p
    let t := if t.first = some p then { t with first := (t.proc p).rrnext } else t
    if t.last = some p then { t with last := (t.proc p).rrprev } else t) (some p) none).setRrprev (some p) none = _
  rw [← next, ← prev, ← ends.1, ← ends.2]
  dsimp only
  split_ifs <;> rfl

theorem remove_first : (removeProcFromRRqueue t p).first =
    if t.first = some p then (t.proc p).rrnext else t.first := by
  simp [remove_eq]

theorem remove_last : (removeProcFromRRqueue t p).last =
    if t.last = some p then (t.proc p).rrprev else t.last := by
  simp [remove_eq]

theorem remove_rrnext : ((removeProcFromRRqueue t p).proc q).rrnext =
    if q = p then none else if (t.proc p).rrprev = some q then (t.proc p).rrnext else (t.proc q).rrnext := by
  simp [remove_eq, bypass_rrnext, eq_comm]

theorem remove_rrprev : ((removeProcFromRRqueue t p).proc q).rrprev =
    if q = p then none else if (t.proc p).rrnext = some q then (t.proc p).rrprev else (t.proc q).rrprev := by
  simp [remove_eq, bypass_rrprev, eq_comm]

/-- `remove` changes nothing but links. -/
theorem remove_data {β : Type} (f : Proc → β) (blindNext : ∀ r a, f { r with rrnext := a } = f r)
    (blindPrev : ∀ r a, f { r with rrprev := a } = f r) :
    f ((removeProcFromRRqueue t p).proc q) = f (t.proc q) := by
  rw [remove_eq, setRrprev_data _ _ _ _ f blindPrev, setRrnext_data _ _ _ _ f blindNext]
  dsimp only [bypass]
  rw [setRrprev_data _ _ _ _ f blindPrev, setRrnext_data _ _ _ _ f blindNext]

end Operations

/-! ## The queue as a list -/

variable {t : Table} {l : List Slot}

/-- **Push is append**, for a process off the list. -/
theorem Links.push (links : Links t l) {p : Slot} (fresh : p ∉ l) : Links (pushProcToRRqueue t p) (l ++ [p]) := by
  have appended := IsDList.append links fresh
  have next : (fun q => ((pushProcToRRqueue t p).proc q).rrnext) =
      fun q => if t.last = some q then some p else (t.proc q).rrnext := funext fun q => push_rrnext t p q
  have prev : (fun q => ((pushProcToRRqueue t p).proc q).rrprev) =
      fun q => if q = p then t.last else (t.proc q).rrprev := by
    funext q
    rw [push_rrprev]
    by_cases same : q = p
    · subst same
      cases empty : t.last with
      | none => simpa using links.prev_none fresh
      | some z => simp
    · simp [same]
  unfold Links
  rw [next, prev, push_first, push_last]
  exact appended

/-- **Removal is deletion.** -/
theorem Links.remove (links : Links t l) (p : Slot) : Links (removeProcFromRRqueue t p) (l.erase p) := by
  have erased := IsDList.erase links p
  have next : (fun q => ((removeProcFromRRqueue t p).proc q).rrnext) =
      fun q => if q = p then none else if (t.proc q).rrnext = some p then (t.proc p).rrnext else (t.proc q).rrnext := by
    funext q
    rw [remove_rrnext]
    simp only [links.prev_iff]
  have prev : (fun q => ((removeProcFromRRqueue t p).proc q).rrprev) =
      fun q => if q = p then none else if (t.proc q).rrprev = some p then (t.proc p).rrprev else (t.proc q).rrprev := by
    funext q
    rw [remove_rrprev]
    simp only [links.prev_iff]
  unfold Links
  rw [next, prev, remove_first, remove_last]
  exact erased

/-- The queue holds `l`, and every queued process is `RUNNABLE`. -/
structure Ready (t : Table) (l : List Slot) : Prop where
  links : Links t l
  runnable : ∀ p ∈ l, (t.proc p).state = .runnable

/-- Every `RUNNABLE` process is queued. -/
def Complete (t : Table) (l : List Slot) : Prop := ∀ p, (t.proc p).state = .runnable → p ∈ l

/-- A process in another state is off the queue. -/
theorem Ready.not_mem (ready : Ready t l) {p : Slot} (other : (t.proc p).state ≠ .runnable) : p ∉ l :=
  fun inside => other (ready.runnable p inside)

/-- A change to a process off the queue that keeps its links. -/
theorem Ready.modify_off (ready : Ready t l) {p : Slot} (off : p ∉ l) (f : Proc → Proc)
    (next : (f (t.proc p)).rrnext = (t.proc p).rrnext) (prev : (f (t.proc p)).rrprev = (t.proc p).rrprev) :
    Ready (t.modify p f) l where
  links := ready.links.modify p f next prev
  runnable q inside := by
    have different : q ≠ p := fun same => off (same ▸ inside)
    rw [modify_proc_ne t p f different]
    exact ready.runnable q inside

/-- The state of each process is the old one, or it went from `SLEEPING` to `RUNNABLE`. -/
def WakesOnly (t t' : Table) : Prop :=
  ∀ p, (t'.proc p).state = (t.proc p).state ∨ ((t.proc p).state = .sleeping ∧ (t'.proc p).state = .runnable)

theorem WakesOnly.trans {t t' t'' : Table} (first : WakesOnly t t') (second : WakesOnly t' t'') : WakesOnly t t'' := by
  intro p
  rcases first p with same | ⟨slept, woke⟩ <;> rcases second p with same' | ⟨slept', woke'⟩
  · exact .inl (same'.trans same)
  · exact .inr ⟨same ▸ slept', woke'⟩
  · exact .inr ⟨slept, same'.trans woke⟩
  · rw [woke] at slept'
    cases slept'

/-- What waking processes does to a table: no other change of state, and the queue stays ready. A queue
kernel keeps it complete, the other one does not touch it. -/
structure Wakes (b : Build) (t t' : Table) : Prop where
  states : WakesOnly t t'
  queue : ∀ l, Ready t l → ∃ l', Ready t' l' ∧ (b.queued = true → Complete t l → Complete t' l') ∧
    (b.queued = false → l' = l)

section
variable {b : Build}

theorem Wakes.refl (t : Table) : Wakes b t t := ⟨fun _ => .inl rfl, fun l ready => ⟨l, ready, fun _ => id, fun _ => rfl⟩⟩

theorem Wakes.trans {t t' t'' : Table} (first : Wakes b t t') (second : Wakes b t' t'') : Wakes b t t'' where
  states := first.states.trans second.states
  queue l ready := by
    obtain ⟨l', ready', complete, still⟩ := first.queue l ready
    obtain ⟨l'', ready'', complete', still'⟩ := second.queue l' ready'
    exact ⟨l'', ready'', fun queued => complete' queued ∘ complete queued,
      fun unqueued => (still' unqueued).trans (still unqueued)⟩

/-- A state other than `SLEEPING` and `RUNNABLE` survives. -/
theorem Wakes.state_eq {t t' : Table} (wakes : Wakes b t t') {p : Slot} (awake : (t.proc p).state ≠ .sleeping) :
    (t'.proc p).state = (t.proc p).state := by
  rcases wakes.states p with same | ⟨slept, _⟩
  · exact same
  · exact absurd slept awake

/-- A modification that keeps state and links. -/
theorem Wakes.modify (t : Table) (p : Slot) (f : Proc → Proc) (state : (f (t.proc p)).state = (t.proc p).state)
    (next : (f (t.proc p)).rrnext = (t.proc p).rrnext) (prev : (f (t.proc p)).rrprev = (t.proc p).rrprev) :
    Wakes b t (t.modify p f) where
  states q := .inl (modify_data t p q Proc.state f state)
  queue l ready := by
    have same (q : Slot) : ((t.modify p f).proc q).state = (t.proc q).state := modify_data t p q Proc.state f state
    refine ⟨l, ⟨ready.links.modify p f next prev, fun q inside => ?_⟩, fun _ complete q awake => ?_, fun _ => rfl⟩
    · rw [same]; exact ready.runnable q inside
    · exact complete q ((same q).symm.trans awake)

/-- The state of a process after a push is the state before. -/
@[simp] theorem push_state (t : Table) (p q : Slot) :
    ((pushProcToRRqueue t p).proc q).state = (t.proc q).state :=
  push_data t p q Proc.state (fun _ _ => rfl) fun _ _ => rfl

@[simp] theorem remove_state (t : Table) (p q : Slot) :
    ((removeProcFromRRqueue t p).proc q).state = (t.proc q).state :=
  remove_data t p q Proc.state (fun _ _ => rfl) fun _ _ => rfl

theorem makeRunnable_state (b : Build) (t : Table) (p q : Slot) :
    ((makeRunnable b t p).proc q).state = if q = p then .runnable else (t.proc q).state := by
  unfold makeRunnable
  by_cases same : q = p
  · subst same; cases b.queued <;> simp
  · cases b.queued <;> simp [same, modify_proc_ne]

/-- In a queue kernel a process off the queue that becomes `RUNNABLE` is queued last. -/
theorem Ready.makeRunnable (ready : Ready t l) {b : Build} (queued : b.queued = true) {p : Slot} (off : p ∉ l) :
    Ready (makeRunnable b t p) (l ++ [p]) where
  links := by
    unfold Sched.makeRunnable
    rw [if_pos queued]
    exact (ready.links.modify p _ rfl rfl).push off
  runnable q inside := by
    rw [makeRunnable_state]
    split_ifs with same
    · rfl
    · rcases List.mem_append.1 inside with old | new
      · exact ready.runnable q old
      · exact absurd (List.mem_singleton.1 new) same

theorem Complete.makeRunnable (complete : Complete t l) (b : Build) (p : Slot) :
    Complete (makeRunnable b t p) (l ++ [p]) := by
  intro q awake
  rw [makeRunnable_state] at awake
  split_ifs at awake with same
  · simp [same]
  · exact List.mem_append_left _ (complete q awake)

/-- A process off the queue becomes `RUNNABLE`: a queue kernel queues it, the other one leaves the queue alone. -/
theorem Ready.wake (ready : Ready t l) (b : Build) {p : Slot} (off : p ∉ l) :
    ∃ l', Ready (Sched.makeRunnable b t p) l' ∧
      (b.queued = true → Complete t l → Complete (Sched.makeRunnable b t p) l') ∧ (b.queued = false → l' = l) := by
  cases queued : b.queued with
  | true =>
    exact ⟨l ++ [p], ready.makeRunnable queued off, fun _ complete => complete.makeRunnable b p, by simp⟩
  | false =>
    refine ⟨l, ?_, (by simp), fun _ => rfl⟩
    have woken : Ready (t.modify p fun r => { r with state := .runnable }) l := ready.modify_off off _ rfl rfl
    simpa [Sched.makeRunnable, queued] using woken

theorem WakesOnly.makeRunnable {p : Slot} (asleep : (t.proc p).state = .sleeping) : WakesOnly t (makeRunnable b t p) := by
  intro q
  rw [makeRunnable_state]
  split_ifs with same
  · exact .inr ⟨same ▸ asleep, rfl⟩
  · exact .inl rfl

/-- Waking one sleeper. -/
theorem Wakes.makeRunnable (t : Table) {p : Slot} (asleep : (t.proc p).state = .sleeping) :
    Wakes b t (makeRunnable b t p) where
  states := .makeRunnable asleep
  queue l ready := by
    exact ready.wake b (ready.not_mem (by rw [asleep]; decide))

/-- A loop over the slots each of whose rounds only wakes. -/
theorem Wakes.foldl {f : Table → Slot → Table} (each : ∀ t p, Wakes b t (f t p)) (ps : List Slot) (t : Table) :
    Wakes b t (ps.foldl f t) := by
  induction ps generalizing t with
  | nil => exact .refl t
  | cons p ps ih => exact (each t p).trans (ih (f t p))

theorem Wakes.wakeup1 (chan : Chan) (t : Table) : Wakes b t (wakeup1 b chan t) := by
  refine Wakes.foldl (fun t p => ?_) slots t
  split_ifs with asleep
  · exact .makeRunnable t asleep.1
  · exact .refl t

theorem Wakes.reparent (me init : Slot) (t : Table) : Wakes b t (reparent b me init t) := by
  refine Wakes.foldl (fun t p => ?_) slots t
  split_ifs with child
  · have moved : Wakes b t (t.modify p fun r => { r with parent := some init }) := .modify t p _ rfl rfl rfl
    dsimp only
    split_ifs
    · exact moved.trans (.wakeup1 _ _)
    · exact moved
  · exact .refl t

theorem Wakes.kill (t : Table) (pid : Int) : Wakes b t (kill b t pid).1 := by
  unfold Sched.kill
  split
  · rename_i p _
    have flagged : Wakes b t (t.modify p fun r => { r with killed := true }) := .modify t p _ rfl rfl rfl
    dsimp only
    split_ifs with asleep
    · exact flagged.trans (.makeRunnable _ asleep)
    · exact flagged
  · exact .refl t

/-- Accounting touches neither states nor links. -/
theorem Wakes.advanceprocstats (t : Table) : Wakes b t (advanceprocstats t) := by
  have same (p : Slot) : ((Sched.advanceprocstats t).proc p).state = (t.proc p).state ∧
      ((Sched.advanceprocstats t).proc p).rrnext = (t.proc p).rrnext ∧
      ((Sched.advanceprocstats t).proc p).rrprev = (t.proc p).rrprev := by
    unfold Sched.advanceprocstats
    dsimp only
    split <;> simp_all
  refine ⟨fun p => .inl (same p).1, fun l ready => ⟨l, ⟨?_, fun p inside => ?_⟩, fun _ complete p awake => ?_, fun _ => rfl⟩⟩
  · unfold Links
    rw [show (fun p => ((Sched.advanceprocstats t).proc p).rrnext) = fun p => (t.proc p).rrnext from
        funext fun p => (same p).2.1,
      show (fun p => ((Sched.advanceprocstats t).proc p).rrprev) = fun p => (t.proc p).rrprev from
        funext fun p => (same p).2.2]
    exact ready.links
  · rw [(same p).1]; exact ready.runnable p inside
  · exact complete p ((same p).1.symm.trans awake)

/-- A signal to a process that is not asleep only sets a pending bit. -/
theorem Wakes.sigsend (t : Table) (pid signum : Int)
    (awake : ∀ p, findPid t pid = some p → (t.proc p).state ≠ .sleeping) : Wakes b t (sigsend t pid signum).1 := by
  unfold Sched.sigsend
  split_ifs
  · exact .refl t
  · split
    · rename_i p found
      dsimp only
      rw [if_neg (by simpa using awake p found)]
      exact .modify t p _ rfl rfl rfl
    · exact .refl t

end

/-- Sleepers may become `RUNNABLE`; identifiers, parents and channels stay. -/
structure Awakens (t t' : Table) : Prop where
  pid : ∀ p, (t'.proc p).pid = (t.proc p).pid
  parent : ∀ p, (t'.proc p).parent = (t.proc p).parent
  chan : ∀ p, (t'.proc p).chan = (t.proc p).chan
  states : WakesOnly t t'

namespace Awakens

variable {b : Build} {t t' t'' : Table} {p : Slot}

theorem refl (t : Table) : Awakens t t := ⟨fun _ => rfl, fun _ => rfl, fun _ => rfl, fun _ => .inl rfl⟩

theorem trans (first : Awakens t t') (second : Awakens t' t'') : Awakens t t'' where
  pid p := (second.pid p).trans (first.pid p)
  parent p := (second.parent p).trans (first.parent p)
  chan p := (second.chan p).trans (first.chan p)
  states := first.states.trans second.states

/-- A modification of other fields. -/
theorem modify (t : Table) (p : Slot) (f : Proc → Proc) (state : (f (t.proc p)).state = (t.proc p).state)
    (pid : (f (t.proc p)).pid = (t.proc p).pid) (parent : (f (t.proc p)).parent = (t.proc p).parent)
    (chan : (f (t.proc p)).chan = (t.proc p).chan) : Awakens t (t.modify p f) where
  pid q := modify_data t p q Proc.pid f pid
  parent q := modify_data t p q Proc.parent f parent
  chan q := modify_data t p q Proc.chan f chan
  states q := .inl (modify_data t p q Proc.state f state)

theorem remove (t : Table) (p : Slot) : Awakens t (removeProcFromRRqueue t p) where
  pid q := remove_data t p q Proc.pid (fun _ _ => rfl) fun _ _ => rfl
  parent q := remove_data t p q Proc.parent (fun _ _ => rfl) fun _ _ => rfl
  chan q := remove_data t p q Proc.chan (fun _ _ => rfl) fun _ _ => rfl
  states q := .inl (remove_state t p q)

/-- A field that `makeRunnable` passes over. -/
theorem makeRunnable_data {β : Type} (b : Build) (t : Table) (p q : Slot) (f : Proc → β) (blindState : ∀ r a, f { r with state := a } = f r)
    (blindNext : ∀ r a, f { r with rrnext := a } = f r) (blindPrev : ∀ r a, f { r with rrprev := a } = f r) :
    f ((makeRunnable b t p).proc q) = f (t.proc q) := by
  have started : f ((t.modify p fun r => { r with state := .runnable }).proc q) = f (t.proc q) :=
    modify_data t p q f _ (blindState _ _)
  unfold makeRunnable
  dsimp only
  split_ifs
  · rw [push_data _ p q f blindNext blindPrev, started]
  · exact started

/-- `RUNNABLE`, with a push or without. -/
theorem makeRunnable_fields (b : Build) (t : Table) (p q : Slot) :
    ((makeRunnable b t p).proc q).pid = (t.proc q).pid ∧ ((makeRunnable b t p).proc q).parent = (t.proc q).parent ∧
      ((makeRunnable b t p).proc q).chan = (t.proc q).chan :=
  ⟨makeRunnable_data b t p q Proc.pid (fun _ _ => rfl) (fun _ _ => rfl) fun _ _ => rfl,
    makeRunnable_data b t p q Proc.parent (fun _ _ => rfl) (fun _ _ => rfl) fun _ _ => rfl,
    makeRunnable_data b t p q Proc.chan (fun _ _ => rfl) (fun _ _ => rfl) fun _ _ => rfl⟩

theorem makeRunnable (asleep : (t.proc p).state = .sleeping) : Awakens t (makeRunnable b t p) where
  pid q := (makeRunnable_fields b t p q).1
  parent q := (makeRunnable_fields b t p q).2.1
  chan q := (makeRunnable_fields b t p q).2.2
  states := .makeRunnable asleep

theorem foldl {f : Table → Slot → Table} (each : ∀ t p, Awakens t (f t p)) (ps : List Slot) (t : Table) :
    Awakens t (ps.foldl f t) := by
  induction ps generalizing t with
  | nil => exact .refl t
  | cons p ps ih => exact (each t p).trans (ih (f t p))

theorem wakeup1 (chan : Chan) (t : Table) : Awakens t (wakeup1 b chan t) := by
  refine foldl (fun t p => ?_) slots t
  split_ifs with asleep
  · exact .makeRunnable asleep.1
  · exact .refl t

theorem kill (t : Table) (pid : Int) : Awakens t (kill b t pid).1 := by
  unfold Sched.kill
  split
  · rename_i p _
    have flagged : Awakens t (t.modify p fun r => { r with killed := true }) := .modify t p _ rfl rfl rfl rfl
    dsimp only
    split_ifs with asleep
    · exact flagged.trans (.makeRunnable asleep)
    · exact flagged
  · exact .refl t

theorem sigsend (t : Table) (pid signum : Int) : Awakens t (sigsend t pid signum).1 := by
  unfold Sched.sigsend
  split_ifs
  · exact .refl t
  · split
    · rename_i p _
      have flagged : Awakens t (t.modify p fun r => { r with pending := r.pending ||| (1#32 <<< signum.toNat) }) :=
        .modify t p _ rfl rfl rfl rfl
      dsimp only
      split_ifs with asleep
      · -- without a push: `makeRunnable` of the kernel that has no queue
        exact flagged.trans (.makeRunnable (b := .default) asleep)
      · exact flagged
    · exact .refl t

theorem advanceprocstats (t : Table) : Awakens t (advanceprocstats t) := by
  have same (p : Slot) : ((Sched.advanceprocstats t).proc p).pid = (t.proc p).pid ∧
      ((Sched.advanceprocstats t).proc p).parent = (t.proc p).parent ∧
      ((Sched.advanceprocstats t).proc p).chan = (t.proc p).chan ∧
      ((Sched.advanceprocstats t).proc p).state = (t.proc p).state := by
    unfold Sched.advanceprocstats
    dsimp only
    split <;> simp_all
  exact ⟨fun p => (same p).1, fun p => (same p).2.1, fun p => (same p).2.2.1, fun p => .inl (same p).2.2.2⟩

theorem asleep (awakens : Awakens t t') (asleep : (t'.proc p).state = .sleeping) : (t.proc p).state = .sleeping := by
  rcases awakens.states p with same | ⟨slept, _⟩
  · exact same ▸ asleep
  · exact slept

end Awakens

end Xv6.Sched
