import Xv6.Sched.ReadyQueue
import Xv6.Sched.Sleep

/-!
# What a step can do to the family of processes

`fork`, `exit`, `wait` and `wait_stat` among all the other steps of the kernel, on
any number of CPUs and for every scheduler. Seen from the process tree a step does
one of seven things to the table (`Change`): it creates, starts, abandons, ends or
reaps one process, puts one to sleep in `wait`, or leaves the tree alone.
-/

namespace Xv6.Sched

open Xv6.Lib
open Xv6.Sleep (wakeSlot wakeSlot_awake)

/-! ## What the lottery leaves alone -/

section
variable {β : Type} {f : Proc → β}

/-- A view of a process that does not show tickets and links. -/
structure Blind (f : Proc → β) : Prop where
  next : ∀ r a, f { r with rrnext := a } = f r
  prev : ∀ r a, f { r with rrprev := a } = f r
  tickets : ∀ r m n, f { r with firstTicketNum := m, tickets := n } = f r

variable (blind : Blind f)
include blind

theorem deliverLoop_blind {fuel : Nat} {t t' : Table} {total total' : Int} {o o' : Option Slot}
    (done : deliverLoop id fuel t total o = some (t', total', o')) (p : Slot) : f (t'.proc p) = f (t.proc p) := by
  induction fuel generalizing t total o with
  | zero => cases done
  | succ fuel ih =>
    unfold deliverLoop at done
    split at done
    · cases done; rfl
    · split at done
      · cases done
      · rename_i q _
        split at done
        · rw [ih done, remove_data _ _ _ f blind.next blind.prev]
        · rw [ih done, modify_data t q p f _ (blind.tickets _ _ _)]

theorem countLoop_blind {fuel : Nat} {t t' : Table} {n n' : Classes} {o : Option Slot}
    (done : countLoop id fuel t n o = some (t', n')) (p : Slot) : f (t'.proc p) = f (t.proc p) := by
  induction fuel generalizing t n o with
  | zero => cases done
  | succ fuel ih =>
    cases o with
    | none => cases done; rfl
    | some q =>
      unfold countLoop at done
      split at done
      · rw [ih done, remove_data _ _ _ f blind.next blind.prev]
      · exact ih done

theorem ticketLoop_blind {n : Classes} {fuel : Nat} {t t' : Table} {total total' : Int} {o : Option Slot}
    (done : ticketLoop id n fuel t total o = some (t', total')) (p : Slot) : f (t'.proc p) = f (t.proc p) := by
  induction fuel generalizing t total o with
  | zero => cases done
  | succ fuel ih =>
    cases o with
    | none => cases done; rfl
    | some q =>
      unfold ticketLoop at done
      rw [ih done, modify_data t q p f _ (blind.tickets _ _ _)]

/-- Delivering tickets changes tickets and links only. -/
theorem deliver_blind {b : Build} {t t' : Table} {total : Int} (done : deliverTicketsToFIFOProcs b t = some (t', total))
    (p : Slot) : f (t'.proc p) = f (t.proc p) := by
  unfold deliverTicketsToFIFOProcs deliverTicketsIn at done
  split at done
  · cases done; rfl
  · cases b with
    | frr | fcfs =>
      simp only [Option.bind_eq_bind, Option.bind_eq_some_iff, Prod.exists] at done
      obtain ⟨t1, total1, o, loop, head, _, rest⟩ := done
      cases rest
      rw [modify_data t1 head p f _ (blind.tickets _ _ _), deliverLoop_blind blind loop]
    | prs =>
      simp only [Option.bind_eq_bind, Option.bind_eq_some_iff, Prod.exists] at done
      obtain ⟨t1, n, counted, rest⟩ := done
      rw [ticketLoop_blind blind rest, countLoop_blind blind counted]
    | default => cases done; rfl

/-- A round of the scheduler writes tickets, links and states only, and no time. -/
theorem schedule_data {ncpu : Nat} {b : Build} {k k' : Kernel ncpu} {c : Fin ncpu} (state : ∀ r a, f { r with state := a } = f r)
    (taken : schedule b k c = some k') (p : Slot) : f (k'.tab.proc p) = f (k.tab.proc p) ∧ k'.ticks = k.ticks := by
  unfold schedule at taken
  simp only [Option.bind_eq_bind, Option.bind_eq_some_iff, Prod.exists] at taken
  obtain ⟨t, total, delivered, picked, g, _, rest⟩ := taken
  rw [← deliver_blind blind delivered p]
  cases picked with
  | none =>
    cases rest
    exact ⟨rfl, rfl⟩
  | some q =>
    cases rest
    have running := modify_data (removeProcFromRRqueue t q) q p f (fun r => { r with state := .running }) (state _ _)
    exact ⟨running.trans (remove_data t q p f blind.next blind.prev), rfl⟩

end

/-! ## Wakeups -/

theorem Awakens.wakeSlot {b : Build} (chan : Chan) (t : Table) (p : Slot) : Awakens t (wakeSlot b chan t p) := by
  unfold Sleep.wakeSlot
  split_ifs with asleep
  · exact .makeRunnable asleep.1
  · exact .refl t

/-- Process `p` sleeps on `chan`. -/
def SleepsOn (t : Table) (p : Slot) (chan : Chan) : Prop := (t.proc p).state = .sleeping ∧ (t.proc p).chan = chan

theorem Awakens.sleepsOn {t t' : Table} {p : Slot} {chan : Chan} (awakens : Awakens t t') (sleeps : SleepsOn t' p chan) :
    SleepsOn t p chan :=
  ⟨awakens.asleep sleeps.1, awakens.chan p ▸ sleeps.2⟩

theorem mem_slots (p : Slot) : p ∈ slots := by
  unfold slots
  exact List.mem_finRange p

theorem nodup_slots : slots.Nodup := by
  unfold slots
  exact List.nodup_finRange NPROC

/-- After `wakeup1` nobody sleeps on the channel. -/
theorem wakeup1_awake (b : Build) (chan : Chan) (t : Table) (p : Slot) : ¬ SleepsOn (wakeup1 b chan t) p chan := by
  suffices general : ∀ (ps : List Slot) (t : Table), p ∈ ps → ¬ SleepsOn (ps.foldl (wakeSlot b chan) t) p chan from
    general slots t (mem_slots p)
  intro ps
  induction ps with
  | nil =>
    intro t inside
    cases inside
  | cons q ps ih =>
    intro t inside
    rcases List.mem_cons.1 inside with rfl | later
    · -- the rounds that follow only wake
      intro sleeps
      exact wakeSlot_awake ((Awakens.foldl (.wakeSlot chan) ps _).sleepsOn sleeps)
    · exact ih _ later

/-! ## The children of an exiting process -/

/-- What the loop of `exit` over the slots `ps` does: the children of `me` among them go to `init`, and if one of
them is a zombie, `init` does not sleep in `wait`. -/
structure Reparents (me init : Slot) (ps : List Slot) (t t' : Table) : Prop where
  pid : ∀ p, (t'.proc p).pid = (t.proc p).pid
  chan : ∀ p, (t'.proc p).chan = (t.proc p).chan
  states : WakesOnly t t'
  parent : ∀ p, (t'.proc p).parent = if p ∈ ps ∧ (t.proc p).parent = some me then some init else (t.proc p).parent
  wakes : (∃ p ∈ ps, (t.proc p).parent = some me ∧ (t.proc p).state = .zombie) → ¬ SleepsOn t' init (.proc init)

/-- One round of the loop. -/
def reparentSlot (b : Build) (me init : Slot) (t : Table) (p : Slot) : Table :=
  if (t.proc p).parent = some me then
    let t := t.modify p fun r => { r with parent := some init }
    if (t.proc p).state = .zombie then wakeup1 b (.proc init) t else t
  else t

theorem reparent_eq (b : Build) (me init : Slot) (t : Table) :
    reparent b me init t = slots.foldl (reparentSlot b me init) t := rfl

section
variable {b : Build} {me init p : Slot} {ps : List Slot} {t t' t'' : Table}

theorem Reparents.sleepsOn {chan : Chan} (reparents : Reparents me init ps t t') (sleeps : SleepsOn t' p chan) :
    SleepsOn t p chan := by
  refine ⟨?_, reparents.chan p ▸ sleeps.2⟩
  rcases reparents.states p with same | ⟨slept, _⟩
  · exact same ▸ sleeps.1
  · exact slept

/-- A round that finds a child. -/
theorem reparents_child (b : Build) (child : (t.proc p).parent = some me) :
    Reparents me init [p] t (reparentSlot b me init t p) := by
  have moved : ∀ q, ((t.modify p fun r => { r with parent := some init }).proc q).parent =
      if q ∈ [p] ∧ (t.proc q).parent = some me then some init else (t.proc q).parent := by
    intro q
    rcases eq_or_ne q p with rfl | ne
    · simp [child]
    · simp [modify_proc_ne, ne]
  have woken : Awakens (t.modify p fun r => { r with parent := some init }) (reparentSlot b me init t p) := by
    unfold reparentSlot
    rw [if_pos child]
    dsimp only
    split_ifs
    · exact .wakeup1 _ _
    · exact .refl _
  refine ⟨?_, ?_, ?_, ?_, ?_⟩
  · exact fun q => (woken.pid q).trans (modify_data t p q Proc.pid _ rfl)
  · exact fun q => (woken.chan q).trans (modify_data t p q Proc.chan _ rfl)
  · intro q
    have same := modify_data t p q Proc.state (fun r => { r with parent := some init }) rfl
    rw [← same]
    exact woken.states q
  · exact fun q => (woken.parent q).trans (moved q)
  · rintro ⟨q, inside, _, dead⟩
    obtain rfl := List.mem_singleton.1 inside
    unfold reparentSlot
    rw [if_pos child]
    dsimp only
    rw [if_pos (by simpa using dead)]
    exact wakeup1_awake b _ _ init

theorem reparents_other (b : Build) (other : (t.proc p).parent ≠ some me) :
    Reparents me init [p] t (reparentSlot b me init t p) := by
  unfold reparentSlot
  rw [if_neg other]
  refine ⟨fun _ => rfl, fun _ => rfl, fun _ => .inl rfl, ?_, ?_⟩
  · intro q
    rw [if_neg]
    rintro ⟨inside, child⟩
    obtain rfl := List.mem_singleton.1 inside
    exact other child
  · rintro ⟨q, inside, child, _⟩
    obtain rfl := List.mem_singleton.1 inside
    exact absurd child other

/-- A round, then the rounds for other slots. -/
theorem Reparents.cons (first : Reparents me init [p] t t') (rest : Reparents me init ps t' t'') (fresh : p ∉ ps) :
    Reparents me init (p :: ps) t t'' := by
  have parent : ∀ q ∈ ps, (t'.proc q).parent = (t.proc q).parent := by
    intro q inside
    have ne : q ≠ p := fun same => fresh (same ▸ inside)
    rw [first.parent q, if_neg]
    rintro ⟨here, _⟩
    exact ne (List.mem_singleton.1 here)
  refine ⟨?_, ?_, ?_, ?_, ?_⟩
  · exact fun q => (rest.pid q).trans (first.pid q)
  · exact fun q => (rest.chan q).trans (first.chan q)
  · intro q
    rcases first.states q with same | ⟨slept, woke⟩ <;> rcases rest.states q with same' | ⟨slept', woke'⟩
    · exact .inl (same'.trans same)
    · exact .inr ⟨same ▸ slept', woke'⟩
    · exact .inr ⟨slept, same'.trans woke⟩
    · rw [woke] at slept'
      cases slept'
  · intro q
    rw [rest.parent q]
    by_cases inside : q ∈ ps
    · simp [inside, parent q inside]
    · simp [inside, first.parent q]
  · rintro ⟨q, inside, child, dead⟩
    rcases List.mem_cons.1 inside with rfl | later
    · intro sleeps
      exact first.wakes ⟨q, List.mem_singleton_self q, child, dead⟩ (rest.sleepsOn sleeps)
    · refine rest.wakes ⟨q, later, (parent q later).trans child, ?_⟩
      rcases first.states q with same | ⟨slept, _⟩
      · exact same.trans dead
      · rw [dead] at slept
        cases slept

/-- **The loop of `exit`** gives all children of `me` to `init`. -/
theorem reparent_reparents (b : Build) (me init : Slot) (t : Table) :
    Reparents me init slots t (reparent b me init t) := by
  rw [reparent_eq]
  suffices general : ∀ ps : List Slot, ps.Nodup → ∀ t, Reparents me init ps t (ps.foldl (reparentSlot b me init) t) from
    general slots nodup_slots t
  intro ps
  induction ps with
  | nil =>
    intro _ t
    exact ⟨fun _ => rfl, fun _ => rfl, fun _ => .inl rfl, fun _ => by simp, by simp⟩
  | cons p ps ih =>
    intro nodup t
    obtain ⟨fresh, nodup⟩ := List.nodup_cons.1 nodup
    by_cases child : (t.proc p).parent = some me
    · exact (reparents_child b child).cons (ih nodup _) fresh
    · exact (reparents_other b child).cons (ih nodup _) fresh

end

/-! ## The scan of `wait` -/

section
variable {t : Table} {me q : Slot} {havekids kids : Bool} {ps : List Slot}

/-- A scan that comes to its end has seen no zombie child. -/
theorem waitScan_none (found : waitScan t me ps havekids = (none, kids)) {p : Slot} (inside : p ∈ ps) :
    ¬ ((t.proc p).parent = some me ∧ (t.proc p).state = .zombie) := by
  induction ps generalizing havekids with
  | nil => cases inside
  | cons r ps ih =>
    unfold waitScan at found
    split_ifs at found with other dead
    · rcases List.mem_cons.1 inside with rfl | later
      · exact fun child => other child.1
      · exact ih found later
    · cases found
    · rcases List.mem_cons.1 inside with rfl | later
      · exact fun child => dead child.2
      · exact ih found later

/-- The scan reads parents and states only. -/
theorem waitScan_congr {t' : Table} (parent : ∀ p, (t'.proc p).parent = (t.proc p).parent)
    (state : ∀ p, (t'.proc p).state = (t.proc p).state) : waitScan t' me ps havekids = waitScan t me ps havekids := by
  induction ps generalizing havekids with
  | nil => rfl
  | cons r ps ih =>
    unfold waitScan
    rw [parent, state, ih, ih]

end

end Xv6.Sched
