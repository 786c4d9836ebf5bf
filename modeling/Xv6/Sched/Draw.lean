import Xv6.Sched.Tickets

/-!
# The draw

The tickets are numbered from 1 on, but `pickProcess` rolls a remainder of `totalTickets`. A roll
from 1 on has one holder, which wins; nobody holds a roll of 0, and the round has no winner
although the queue is not empty.
-/

namespace Xv6.Sched

open Xv6.Lib

/-- The number that `pickProcess` rolls. -/
def rolled (g : Xorshift) (totalTickets : Int) : Int := (xorshift128 g).1.toInt.tmod totalTickets

/-- The process picked is queued and the only one to hold the ticket. -/
def Wins (t : Table) (l : List Slot) (ticket : Int) (picked : Option Slot) : Prop :=
  ∃ p, picked = some p ∧ p ∈ l ∧ HoldsTicket t ticket p ∧ ∀ q ∈ l, HoldsTicket t ticket q → q = p

section
variable {b : Build} {t : Table} {l : List Slot} {total ticket : Int} {g : Xorshift}

instance (t : Table) (ticket : Int) : DecidablePred (HoldsTicket t ticket) := fun _ => inferInstanceAs (Decidable (_ ∧ _))

/-- The search takes the first holder from the head of the queue on. -/
theorem pickLoop_find (ready : Ready t l) (rest : List Slot) {fuel : Nat} {done : List Slot} (split : l = done ++ rest)
    (enough : rest.length < fuel) :
    pickLoop t ticket fuel rest.head? = some (rest.find? fun p => HoldsTicket t ticket p) := by
  induction rest generalizing fuel done with
  | nil =>
    obtain ⟨fuel, rfl⟩ : ∃ m, fuel = m + 1 := ⟨fuel - 1, by simp at enough; omega⟩
    rfl
  | cons q rest ih =>
    obtain ⟨fuel, rfl⟩ : ∃ m, fuel = m + 1 := ⟨fuel - 1, by omega⟩
    have next : (t.proc q).rrnext = rest.head? := ready.links.next_split split
    have test : (ticket ≥ (t.proc q).firstTicketNum ∧
        ticket ≤ (t.proc q).tickets + (t.proc q).firstTicketNum - 1) ↔ HoldsTicket t ticket q := by
      rw [HoldsTicket, Int.add_comm (t.proc q).tickets]
    rw [List.head?_cons, pickLoop]
    by_cases holds : HoldsTicket t ticket q
    · rw [if_pos (test.2 holds), List.find?_cons_of_pos (by simpa using holds)]
    · rw [if_neg (fun h => holds (test.1 h)), List.find?_cons_of_neg (by simpa using holds), next]
      have split' : l = (done ++ [q]) ++ rest := by rw [split, List.append_assoc, List.singleton_append]
      exact ih split' (Nat.lt_of_succ_lt_succ enough)

theorem pickProcess_find (ready : Ready t l) (positive : 0 < total) :
    pickProcess t total g = some (l.find? fun p => HoldsTicket t (rolled g total) p, (xorshift128 g).2) := by
  have found : pickLoop t (rolled g total) queueFuel l.head? = _ :=
    pickLoop_find ready l (List.nil_append l).symm ready.length_lt
  rw [← ready.links.first_eq] at found
  rw [pickProcess, if_pos positive]
  exact congrArg (Option.bind · _) found

theorem rolled_lt (positive : 0 < total) : rolled g total < total := Int.tmod_lt_of_pos _ positive

/-- With the tickets partitioned, the rolls with a winner are those from 1 on. -/
theorem Partition.wins_iff (partition : Partition t l total) (small : ticket ≤ total) :
    Wins t l ticket (l.find? fun p => HoldsTicket t ticket p) ↔ 0 < ticket := by
  constructor
  · rintro ⟨p, -, member, holds, -⟩
    have := (partition.covers ticket).1 ⟨p, member, holds⟩
    omega
  · intro positive
    obtain ⟨p, member, holds⟩ := (partition.covers ticket).2 ⟨by omega, small⟩
    have only : ∀ q ∈ l, HoldsTicket t ticket q → q = p := fun q inside holds' => by
      by_contra different
      exact partition.disjoint q inside p member different ticket ⟨holds', holds⟩
    have some_ : (l.find? fun p => HoldsTicket t ticket p).isSome :=
      List.find?_isSome.2 ⟨p, member, by simpa using holds⟩
    obtain ⟨q, found⟩ := Option.isSome_iff_exists.1 some_
    have same : q = p := only q (List.mem_of_find?_eq_some found) (by simpa using List.find?_some found)
    exact ⟨p, found.trans (congrArg some same), member, holds, only⟩

theorem Partition.none_iff (partition : Partition t l total) (small : ticket ≤ total) :
    (l.find? fun p => HoldsTicket t ticket p) = none ↔ ticket ≤ 0 := by
  rw [List.find?_eq_none]
  constructor
  · intro nobody
    by_contra positive
    obtain ⟨p, member, holds⟩ := (partition.covers ticket).2 ⟨by omega, small⟩
    exact nobody p member (by simpa using holds)
  · intro low p member holds
    have := (partition.covers ticket).1 ⟨p, member, by simpa using holds⟩
    omega

/-- After the delivery to a queue of `RUNNABLE` processes, the number rolled has one holder, and
`pickProcess` returns it, exactly when it is positive; at a roll of 0 `pickProcess` returns 0. -/
theorem winner_iff_positive (queued : b.queued = true) (ready : Ready t l) (nonempty : l ≠ []) (g : Xorshift) :
    ∃ t' total picked, deliverTicketsToFIFOProcs b t = some (t', total) ∧
      pickProcess t' total g = some (picked, (xorshift128 g).2) ∧
      (Wins t' l (rolled g total) picked ↔ 0 < rolled g total) ∧ (picked = none ↔ rolled g total ≤ 0) := by
  have partition : Partition (delivered b t l) l _ := delivered_partition ready nonempty
  have ready' : Ready (delivered b t l) l := (assign_same _ _ _ _).ready ready
  have positive : 0 < (l.map (shareOf b t l)).sum := by
    obtain ⟨p, member⟩ := List.exists_mem_of_ne_nil l nonempty
    obtain ⟨x, holds⟩ := partition.nonempty p member
    have := (partition.covers x).1 ⟨p, member, holds⟩
    omega
  have small := (rolled_lt (g := g) positive).le
  exact ⟨_, _, _, deliver_eq queued ready nonempty, pickProcess_find ready' positive, partition.wins_iff small,
    partition.none_iff small⟩

end

/-- The first roll is 21 of 1020 tickets, and has a winner. -/
theorem winner_iff_positive_two : ∃ t' picked, deliverTicketsToFIFOProcs .fcfs (twoQueued .fcfs) = some (t', 1020) ∧
    pickProcess t' 1020 .initial = some (picked, (xorshift128 .initial).2) ∧ Wins t' [0, 1] 21 picked := by
  obtain ⟨t', total, picked, delivers, picks, wins, _⟩ :=
    winner_iff_positive (b := .fcfs) rfl (twoQueued_ready (b := .fcfs) rfl) (by simp) .initial
  have all : (deliverTicketsToFIFOProcs .fcfs (twoQueued .fcfs)).map Prod.snd = some 1020 := by decide +kernel
  obtain rfl : total = 1020 := by simpa [delivers] using all
  have roll : rolled .initial 1020 = 21 := by decide
  rw [roll] at wins
  exact ⟨t', picked, delivers, picks, wins.2 (by decide)⟩

/-- The table of the first process alone, after it has been pushed. -/
theorem boot_queue_ready : Ready (boot .frr 1).tab [0] := by
  have zero : Ready Table.zero [] := ⟨IsDList.empty _ _ (fun _ => rfl) fun _ => rfl, by simp⟩
  exact (zero.modify_off (p := 0) (by simp) (fun d => { d with pid := 1 }) rfl rfl).makeRunnable (b := .frr) rfl (by simp)

/-- The seventh number of the generator is a multiple of 10: with only the first process in the
queue of the `FRR` kernel, which then holds all 10 tickets, the scheduler is told that there is nobody to run. -/
theorem no_winner_at_boot : Ready (boot .frr 1).tab [0] ∧
    ∃ t' total g, deliverTicketsToFIFOProcs .frr (boot .frr 1).tab = some (t', total) ∧
      g = (fun g => (xorshift128 g).2)^[6] (boot .frr 1).rng ∧
      total = 10 ∧ (t'.proc 0).firstTicketNum = 1 ∧ (t'.proc 0).tickets = 10 ∧
      rolled g total = 0 ∧ pickProcess t' total g = some (none, (xorshift128 g).2) := by
  refine ⟨boot_queue_ready, ?_⟩
  have run : ((deliverTicketsToFIFOProcs .frr (boot .frr 1).tab).map fun s =>
      ([s.2, (s.1.proc 0).firstTicketNum, (s.1.proc 0).tickets,
        rolled ((fun g => (xorshift128 g).2)^[6] (boot .frr 1).rng) s.2],
        pickProcess s.1 s.2 ((fun g => (xorshift128 g).2)^[6] (boot .frr 1).rng))) =
      some ([10, 1, 10, 0], some (none, (xorshift128 ((fun g => (xorshift128 g).2)^[6] (boot .frr 1).rng)).2)) := by
    decide +kernel
  obtain ⟨s, delivers, rest⟩ := Option.map_eq_some_iff.1 run
  simp only [Prod.mk.injEq, List.cons.injEq, and_true] at rest
  obtain ⟨⟨total, first, tickets, roll⟩, picks⟩ := rest
  exact ⟨s.1, s.2, _, delivers, rfl, total, first, tickets, roll, picks⟩

end Xv6.Sched
