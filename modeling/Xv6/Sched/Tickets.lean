import Xv6.Sched.Queue
import Xv6.Sched.Kernel
import Xv6.Lib.Tiles

/-!
# What ticket delivery hands out

`deliverTicketsToFIFOProcs` goes over the queue from its tail and gives every process the
tickets that follow those of the process behind it. How many they are depends on the
kernel: the head of the queue or the higher priority class outweighs the rest. The numbers
stay far below the largest `int`, so computing with the 32 bits of an `int` and computing
with integers is the same.
-/

namespace Xv6.Sched

open Xv6.Lib

/-- Two tables with the same states, links and ends. -/
structure SameQueue (t t' : Table) : Prop where
  state : ∀ p, (t'.proc p).state = (t.proc p).state
  rrnext : ∀ p, (t'.proc p).rrnext = (t.proc p).rrnext
  rrprev : ∀ p, (t'.proc p).rrprev = (t.proc p).rrprev
  first : t'.first = t.first
  last : t'.last = t.last

theorem SameQueue.refl (t : Table) : SameQueue t t := ⟨fun _ => rfl, fun _ => rfl, fun _ => rfl, rfl, rfl⟩

theorem SameQueue.trans {t t' t'' : Table} (h : SameQueue t t') (h' : SameQueue t' t'') : SameQueue t t'' :=
  ⟨fun p => (h'.state p).trans (h.state p), fun p => (h'.rrnext p).trans (h.rrnext p),
    fun p => (h'.rrprev p).trans (h.rrprev p), h'.first.trans h.first, h'.last.trans h.last⟩

/-- Writing tickets keeps the queue. -/
theorem SameQueue.modify (t : Table) (p : Slot) (f : Proc → Proc) (state : (f (t.proc p)).state = (t.proc p).state)
    (next : (f (t.proc p)).rrnext = (t.proc p).rrnext) (prev : (f (t.proc p)).rrprev = (t.proc p).rrprev) :
    SameQueue t (t.modify p f) :=
  ⟨fun q => modify_data t p q Proc.state f state, fun q => modify_data t p q Proc.rrnext f next,
    fun q => modify_data t p q Proc.rrprev f prev, rfl, rfl⟩

theorem SameQueue.ready {t t' : Table} (same : SameQueue t t') {l : List Slot} (ready : Ready t l) : Ready t' l where
  links := by
    unfold Links
    rw [show (fun p => (t'.proc p).rrnext) = fun p => (t.proc p).rrnext from funext same.rrnext,
      show (fun p => (t'.proc p).rrprev) = fun p => (t.proc p).rrprev from funext same.rrprev,
      same.first, same.last]
    exact ready.links
  runnable p inside := (same.state p).trans (ready.runnable p inside)

theorem SameQueue.complete {t t' : Table} (same : SameQueue t t') {l : List Slot} (complete : Complete t l) :
    Complete t' l :=
  fun p awake => complete p ((same.state p).symm.trans awake)

theorem SameQueue.wakes {b : Build} {t t' : Table} (same : SameQueue t t') : Wakes b t t' :=
  ⟨fun p => .inl (same.state p), fun l ready => ⟨l, same.ready ready, fun _ => same.complete, fun _ => rfl⟩⟩

/-- The value of an `int`: the low 32 bits of a number, as two's complement. -/
def int (v : Int) : Int := (BitVec.ofInt 32 v).toInt

/-- Rounding that leaves the numbers of an `int` from 0 on alone. -/
def Exact (r : Int → Int) : Prop := ∀ v, 0 ≤ v → v < 2 ^ 31 → r v = v

theorem exact_id : Exact id := fun _ _ _ => rfl

theorem exact_int : Exact int := by
  intro v low high
  rw [int, BitVec.toInt_ofInt]
  exact Int.bmod_eq_of_le (by omega) (by omega)

/-! ## The table after the delivery -/

/-- The tickets from `first` on. -/
def Proc.give (first count : Int) (d : Proc) : Proc := { d with firstTicketNum := first, tickets := count }

/-- Each process of the list gets `share` tickets, from `total + 1` on in the order of the list. -/
def assign (share : Slot → Int) : Int → List Slot → Table → Table
  | _, [], t => t
  | total, p :: ps, t =>
    assign share (total + share p) ps (t.modify p (Proc.give (total + 1) (share p)))

section
variable {share : Slot → Int} {total : Int} {ps : List Slot} {t : Table} {q : Slot}

theorem assign_append (ps qs : List Slot) (total : Int) (t : Table) :
    assign share total (ps ++ qs) t = assign share (total + (ps.map share).sum) qs (assign share total ps t) := by
  induction ps generalizing total t with
  | nil => simp [assign]
  | cons p ps ih => rw [List.cons_append, assign, ih, assign, List.map_cons, List.sum_cons, Int.add_assoc]

theorem assign_other (outside : q ∉ ps) : (assign share total ps t).proc q = t.proc q := by
  induction ps generalizing total t with
  | nil => rfl
  | cons p ps ih =>
    simp only [List.mem_cons, not_or] at outside
    rw [assign, ih outside.2, modify_proc_ne t p _ outside.1]

/-- The processes get nothing but tickets. -/
theorem assign_blind {β : Type} (f : Proc → β) (blind : ∀ d m n, f { d with firstTicketNum := m, tickets := n } = f d) :
    f ((assign share total ps t).proc q) = f (t.proc q) := by
  induction ps generalizing total t with
  | nil => rfl
  | cons p ps ih => rw [assign, ih, modify_data t p q f _ (blind _ _ _)]

theorem assign_same (share : Slot → Int) (total : Int) (ps : List Slot) (t : Table) :
    SameQueue t (assign share total ps t) := by
  induction ps generalizing total t with
  | nil => exact .refl t
  | cons p ps ih => exact (SameQueue.modify t p _ rfl rfl rfl).trans (ih _ _)

theorem assign_tickets (nodup : ps.Nodup) (member : q ∈ ps) : ((assign share total ps t).proc q).tickets = share q := by
  induction ps generalizing total t with
  | nil => cases member
  | cons p ps ih =>
    obtain ⟨outside, nodup⟩ := List.nodup_cons.1 nodup
    rw [assign]
    rcases List.mem_cons.1 member with rfl | later
    · rw [assign_other outside, modify_proc_self]
      rfl
    · exact ih nodup later

/-- The ranges lie end to end. -/
theorem assign_tiled (nodup : ps.Nodup) (positive : ∀ p ∈ ps, 0 < share p) :
    Tiled (fun p => ((assign share total ps t).proc p).firstTicketNum) (fun p => ((assign share total ps t).proc p).tickets)
      total ps (total + (ps.map share).sum) := by
  induction ps generalizing total t with
  | nil => simp [Tiled]
  | cons p ps ih =>
    have own : (assign share total (p :: ps) t).proc p = Proc.give (total + 1) (share p) (t.proc p) := by
      rw [assign, assign_other (List.nodup_cons.1 nodup).1, modify_proc_self]
    have tickets : ((assign share total (p :: ps) t).proc p).tickets = share p := congrArg Proc.tickets own
    refine ⟨congrArg Proc.firstTicketNum own, ?_, ?_⟩
    · show 0 < ((assign share total (p :: ps) t).proc p).tickets
      rw [tickets]
      exact positive p List.mem_cons_self
    dsimp only
    rw [tickets, List.map_cons, List.sum_cons, ← Int.add_assoc]
    exact ih (List.nodup_cons.1 nodup).2 fun q later => positive q (List.mem_cons_of_mem p later)

end

/-! ## The loops of `FRR` and `FCFS` -/

section
variable {r : Int → Int} {l : List Slot} {t : Table}

theorem deliverLoop_eq (exact_ : Exact r) {head : Slot} (ws : List Slot) {fuel : Nat} {total : Int} {done : List Slot}
    (ready : Ready t l) (split : l.reverse = done ++ (ws ++ [head])) (enough : ws.length < fuel) (low : 0 ≤ total)
    (high : total + 10 * ws.length + 1 < 2 ^ 31) :
    deliverLoop r fuel t total (ws ++ [head]).head? =
      some (assign (fun _ => EXE_TICKETS) total ws t, total + EXE_TICKETS * ws.length, some head) := by
  have first : t.first = some head := by
    rw [ready.links.first_eq, ← List.getLast?_reverse, split, ← List.append_assoc, List.getLast?_concat]
  induction ws generalizing fuel total done t with
  | nil =>
    obtain ⟨fuel, rfl⟩ : ∃ n, fuel = n + 1 := ⟨fuel - 1, by simp at enough; omega⟩
    rw [List.nil_append, List.head?_cons, deliverLoop, if_pos first.symm]
    simp [assign]
  | cons q ws ih =>
    obtain ⟨fuel, rfl⟩ : ∃ n, fuel = n + 1 := ⟨fuel - 1, by omega⟩
    have inside : q ∈ l := List.mem_reverse.1 (split ▸ by simp)
    have prev : (t.proc q).rrprev = (ws ++ [head]).head? := ready.links.prev_split split
    have notHead : some q ≠ t.first := by
      rw [first]
      rintro ⟨⟩
      have nodup := List.nodup_reverse.2 ready.links.nodup
      rw [split] at nodup
      have := (List.nodup_append.1 nodup).2.1
      simp at this
    rw [List.length_cons] at enough high
    push_cast at high
    rw [List.cons_append, List.head?_cons, deliverLoop, if_neg notHead]
    simp only [ready.runnable q inside, ne_eq, not_true_eq_false, if_false, modify_proc_self, prev]
    have exe : EXE_TICKETS = 10 := rfl
    rw [exact_ (total + 1) (by omega) (by omega), exact_ (total + EXE_TICKETS) (by omega) (by omega)]
    have kept : SameQueue t (t.modify q (Proc.give (total + 1) EXE_TICKETS)) := .modify t q _ rfl rfl rfl
    have split' : l.reverse = (done ++ [q]) ++ (ws ++ [head]) := by rw [split]; simp
    have rest := ih (kept.ready ready) split' (Nat.lt_of_succ_lt_succ enough) (by omega)
      (show total + EXE_TICKETS + 10 * ws.length + 1 < 2 ^ 31 by omega) first
    rw [assign, List.length_cons, show total + EXE_TICKETS * ((ws.length + 1 : Nat) : Int) =
      total + EXE_TICKETS + EXE_TICKETS * ws.length by push_cast; ring]
    exact rest

/-! ## The loops of `PRS` -/

/-- Every class has from 0 to `m` processes. -/
structure Classes.Within (n : Classes) (m : Int) : Prop where
  first : 0 ≤ n.priority1Procs ∧ n.priority1Procs ≤ m
  second : 0 ≤ n.priority2Procs ∧ n.priority2Procs ≤ m
  third : 0 ≤ n.priority3Procs ∧ n.priority3Procs ≤ m

theorem Classes.Within.count {n : Classes} {m : Int} (within : n.Within m) (priority : Int) :
    (n.count id priority).Within (m + 1) := by
  obtain ⟨first, second, third⟩ := within
  unfold Classes.count id
  split_ifs <;> constructor <;> first | omega | (simp only; omega)

theorem Classes.count_eq (exact_ : Exact r) {n : Classes} {m : Int} (within : n.Within m) (small : m + 1 < 2 ^ 31)
    (priority : Int) : n.count r priority = n.count id priority := by
  obtain ⟨first, second, third⟩ := within
  rw [Classes.count, Classes.count, exact_ _ (by omega) (by omega), exact_ _ (by omega) (by omega),
    exact_ _ (by omega) (by omega)]
  rfl

theorem countLoop_eq (exact_ : Exact r) (ready : Ready t l) (ws : List Slot) {fuel : Nat} {n : Classes} {m : Int}
    {done : List Slot} (split : l.reverse = done ++ ws) (enough : ws.length < fuel) (within : n.Within m)
    (small : m + ws.length < 2 ^ 31) :
    countLoop r fuel t n ws.head? = some (t, ws.foldl (fun n p => n.count id (t.proc p).priority) n) := by
  induction ws generalizing fuel n m done with
  | nil =>
    obtain ⟨fuel, rfl⟩ : ∃ m, fuel = m + 1 := ⟨fuel - 1, by simp at enough; omega⟩
    rfl
  | cons q ws ih =>
    obtain ⟨fuel, rfl⟩ : ∃ m, fuel = m + 1 := ⟨fuel - 1, by simp at enough; omega⟩
    have inside : q ∈ l := List.mem_reverse.1 (split ▸ by simp)
    have prev : (t.proc q).rrprev = ws.head? := ready.links.prev_split split
    have split' : l.reverse = (done ++ [q]) ++ ws := by rw [split]; simp
    rw [List.length_cons] at enough small
    push_cast at small
    simp only [List.head?_cons, countLoop, ready.runnable q inside, ne_eq, not_true_eq_false, if_false, prev]
    rw [Classes.count_eq exact_ within (by omega), List.foldl_cons]
    exact ih split' (by omega) (within.count _) (by omega)

/-- The class sizes of a list of processes. -/
def classesOf (t : Table) (ps : List Slot) : Classes :=
  ⟨ps.countP fun p => (t.proc p).priority ≤ 0, ps.countP fun p => (t.proc p).priority = 1,
    ps.countP fun p => (t.proc p).priority ≥ 2⟩

theorem foldl_count (ps : List Slot) (n : Classes) : ps.foldl (fun n p => n.count id (t.proc p).priority) n =
    ⟨n.priority1Procs + (classesOf t ps).priority1Procs, n.priority2Procs + (classesOf t ps).priority2Procs,
      n.priority3Procs + (classesOf t ps).priority3Procs⟩ := by
  induction ps generalizing n with
  | nil => simp [classesOf]
  | cons q ps ih =>
    rw [List.foldl_cons, ih, Classes.count, id, id, id]
    by_cases low : (t.proc q).priority ≤ 0
    · have second : (t.proc q).priority ≠ 1 := by omega
      have third : ¬ (t.proc q).priority ≥ 2 := by omega
      simp [classesOf, low, second, third]
      ring
    · by_cases one : (t.proc q).priority = 1
      · simp [classesOf, one]
        ring
      · have third : (t.proc q).priority ≥ 2 := by omega
        simp [classesOf, low, one, third]
        ring

theorem classesOf_reverse (t : Table) (ps : List Slot) : classesOf t ps.reverse = classesOf t ps := by
  simp [classesOf]

theorem ticketLoop_eq (exact_ : Exact r) {n : Classes} {share : Slot → Int} (ws : List Slot) {fuel : Nat} {total : Int}
    {done : List Slot} (ready : Ready t l) (split : l.reverse = done ++ ws) (enough : ws.length < fuel) (low : 0 ≤ total)
    (shares : ∀ q ∈ ws, 0 ≤ share q ∧ ∀ old, n.tickets r (t.proc q).priority old = share q)
    (high : total + (ws.map share).sum + 1 < 2 ^ 31) :
    ticketLoop r n fuel t total ws.head? = some (assign share total ws t, total + (ws.map share).sum) := by
  induction ws generalizing fuel total done t with
  | nil =>
    obtain ⟨fuel, rfl⟩ : ∃ m, fuel = m + 1 := ⟨fuel - 1, by simp at enough; omega⟩
    simp [ticketLoop, assign]
  | cons q ws ih =>
    obtain ⟨fuel, rfl⟩ : ∃ m, fuel = m + 1 := ⟨fuel - 1, by simp at enough; omega⟩
    have prev : (t.proc q).rrprev = ws.head? := ready.links.prev_split split
    obtain ⟨positive, own⟩ := shares q List.mem_cons_self
    have rest : 0 ≤ (ws.map share).sum := List.sum_nonneg fun v member => by
      obtain ⟨p, later, rfl⟩ := List.mem_map.1 member
      exact (shares p (List.mem_cons_of_mem q later)).1
    rw [List.map_cons, List.sum_cons] at high
    simp only [List.head?_cons, ticketLoop, modify_proc_self, prev, own]
    rw [exact_ (total + 1) (by omega) (by omega), exact_ (total + share q) (by omega) (by omega),
      show (t.modify q fun d => { d with firstTicketNum := total + 1, tickets := n.tickets r d.priority d.tickets }) =
        t.modify q (Proc.give (total + 1) (share q)) by simp only [Table.modify, Proc.give, own]]
    have kept : SameQueue t (t.modify q (Proc.give (total + 1) (share q))) := .modify t q _ rfl rfl rfl
    have split' : l.reverse = (done ++ [q]) ++ ws := by rw [split]; simp
    rw [assign, List.map_cons, List.sum_cons, ← Int.add_assoc]
    have high' : (total + share q) + (ws.map share).sum + 1 < 2 ^ 31 := by omega
    refine ih (kept.ready ready) split' (Nat.lt_of_succ_lt_succ enough) (by omega) (fun p later => ?_) high'
    obtain ⟨positive', own'⟩ := shares p (List.mem_cons_of_mem q later)
    exact ⟨positive', fun old => (modify_data t q p Proc.priority (Proc.give (total + 1) (share q)) rfl).symm ▸ own' old⟩

end

/-! ## The shares -/

/-- How many tickets the delivery gives a process of the queue `l`. -/
def shareOf (b : Build) (t : Table) (l : List Slot) (p : Slot) : Int :=
  match b with
  | .prs => (classesOf t l).tickets id (t.proc p).priority 0
  | _ => if l.head? = some p then EXE_TICKETS + FIFO_DIFFERECE * (EXE_TICKETS * (l.length - 1)) else EXE_TICKETS

section
variable {r : Int → Int} {b : Build} {t : Table} {l : List Slot} {n : Classes} {p : Slot}

/-- A queue has a place for each slot of the table. -/
theorem Ready.length_le (ready : Ready t l) : l.length ≤ NPROC := by
  simpa using ready.links.nodup.length_le_card

theorem Ready.length_lt (ready : Ready t l) : l.length < queueFuel := Nat.lt_succ_of_le ready.length_le

theorem classesOf_within (t : Table) (l : List Slot) : (classesOf t l).Within l.length := by
  have first := List.countP_le_length (p := fun p => decide ((t.proc p).priority ≤ 0)) (l := l)
  have second := List.countP_le_length (p := fun p => decide ((t.proc p).priority = 1)) (l := l)
  have third := List.countP_le_length (p := fun p => decide ((t.proc p).priority ≥ 2)) (l := l)
  exact ⟨⟨by simp [classesOf], by simpa [classesOf] using first⟩, ⟨by simp [classesOf], by simpa [classesOf] using second⟩,
    ⟨by simp [classesOf], by simpa [classesOf] using third⟩⟩

/-- The most tickets there are for one process: 64 processes of each lower class. -/
theorem Classes.tickets_bounds (within : n.Within 64) (priority old : Int) :
    0 < n.tickets id priority 0 ∧ n.tickets id priority 0 ≤ 6464010 ∧ n.tickets id priority old = n.tickets id priority 0 := by
  obtain ⟨first, second, third⟩ := within
  have exe : EXE_TICKETS = 10 := rfl
  have difference : FIFO_DIFFERECE = 100 := rfl
  simp only [Classes.tickets, id, exe, difference]
  split_ifs <;> omega

theorem Classes.tickets_eq (exact_ : Exact r) (within : n.Within 64) (priority old : Int) :
    n.tickets r priority old = n.tickets id priority 0 := by
  rw [← (Classes.tickets_bounds within priority old).2.2]
  obtain ⟨first, second, third⟩ := within
  have exe : EXE_TICKETS = 10 := rfl
  have difference : FIFO_DIFFERECE = 100 := rfl
  unfold Classes.tickets
  rw [exe, difference]
  simp only [id, exact_ (n.priority2Procs * 100) (by omega) (by omega),
    exact_ (n.priority1Procs + n.priority2Procs * 100) (by omega) (by omega),
    exact_ (10 * (n.priority1Procs + n.priority2Procs * 100)) (by omega) (by omega),
    exact_ (10 * (n.priority1Procs + n.priority2Procs * 100) * 100) (by omega) (by omega),
    exact_ (10 + 10 * (n.priority1Procs + n.priority2Procs * 100) * 100) (by omega) (by omega),
    exact_ (10 * n.priority1Procs) (by omega) (by omega), exact_ (10 * n.priority1Procs * 100) (by omega) (by omega),
    exact_ (10 + 10 * n.priority1Procs * 100) (by omega) (by omega)]

theorem shareOf_bounds (ready : Ready t l) (p : Slot) (nonempty : l ≠ []) :
    0 < shareOf b t l p ∧ shareOf b t l p ≤ 6464010 := by
  have short := ready.length_le
  have some_ := List.length_pos_iff.2 nonempty
  have within : (classesOf t l).Within 64 := by
    obtain ⟨first, second, third⟩ := classesOf_within t l
    unfold NPROC at short
    exact ⟨by omega, by omega, by omega⟩
  have exe : EXE_TICKETS = 10 := rfl
  have difference : FIFO_DIFFERECE = 100 := rfl
  unfold NPROC at short
  cases b <;> simp only [shareOf, exe, difference]
  case prs => exact ⟨(Classes.tickets_bounds within _ 0).1, (Classes.tickets_bounds within _ 0).2.1⟩
  all_goals split_ifs <;> omega

theorem assign_congr {share share' : Slot → Int} {ps : List Slot} (same : ∀ p ∈ ps, share p = share' p) (total : Int)
    (t : Table) : assign share total ps t = assign share' total ps t := by
  induction ps generalizing total t with
  | nil => rfl
  | cons p ps ih =>
    rw [assign, assign, same p List.mem_cons_self, ih fun q later => same q (List.mem_cons_of_mem p later)]

theorem shareOf_sum (ready : Ready t l) (nonempty : l ≠ []) : (l.map (shareOf b t l)).sum ≤ 413696640 := by
  have each : ∀ v ∈ l.map (shareOf b t l), v ≤ 6464010 := by
    intro v member
    obtain ⟨p, _, rfl⟩ := List.mem_map.1 member
    exact (shareOf_bounds ready p nonempty).2
  have most := List.sum_le_card_nsmul _ _ each
  have short := ready.length_le
  unfold NPROC at short
  rw [List.length_map, nsmul_eq_mul] at most
  omega

/-- Before the head every process has `EXE_TICKETS`. -/
theorem shareOf_rest {head : Slot} {rest : List Slot} (fifo : b ≠ .prs) (nodup : (head :: rest).Nodup) (member : p ∈ rest) :
    shareOf b t (head :: rest) p = EXE_TICKETS := by
  have different : head ≠ p := fun same => (List.nodup_cons.1 nodup).1 (same ▸ member)
  cases b <;> simp_all [shareOf]

theorem shareOf_head {head : Slot} {rest : List Slot} (fifo : b ≠ .prs) :
    shareOf b t (head :: rest) head = EXE_TICKETS + FIFO_DIFFERECE * (EXE_TICKETS * rest.length) := by
  cases b <;> simp_all [shareOf]

theorem shareOf_rest_sum {head : Slot} {rest : List Slot} (fifo : b ≠ .prs) (nodup : (head :: rest).Nodup) :
    (rest.map (shareOf b t (head :: rest))).sum = EXE_TICKETS * rest.length := by
  rw [List.map_congr_left fun p member => shareOf_rest fifo nodup member]
  simp [mul_comm]

/-- The delivery of the `FRR` and `FCFS` kernels. -/
theorem deliverTicketsIn_fifo (exact_ : Exact r) (queued : b ≠ .default) (fifo : b ≠ .prs) {head : Slot} {rest : List Slot}
    (ready : Ready t (head :: rest)) :
    deliverTicketsIn r b t = some (assign (shareOf b t (head :: rest)) 0 (rest.reverse ++ [head]) t,
      ((head :: rest).map (shareOf b t (head :: rest))).sum) := by
  have short := ready.length_le
  unfold NPROC at short
  rw [List.length_cons] at short
  have exe : EXE_TICKETS = 10 := rfl
  have difference : FIFO_DIFFERECE = 100 := rfl
  have start : t.last = (rest.reverse ++ [head]).head? := by
    rw [ready.links.last_eq, ← List.head?_reverse, List.reverse_cons]
  have loop : deliverLoop r queueFuel t 0 (rest.reverse ++ [head]).head? = _ := deliverLoop_eq exact_ rest.reverse ready
    (show (head :: rest).reverse = [] ++ (rest.reverse ++ [head]) by rw [List.reverse_cons, List.nil_append])
    (by rw [List.length_reverse]; unfold queueFuel NPROC; omega) (le_refl _) (by rw [List.length_reverse]; omega)
  rw [List.length_reverse, ← start, zero_add] at loop
  have given : deliverTicketsIn r b t = some
      ((assign (fun _ => EXE_TICKETS) 0 rest.reverse t).modify head
        (Proc.give (EXE_TICKETS * rest.length + 1) (shareOf b t (head :: rest) head)),
        EXE_TICKETS * rest.length + shareOf b t (head :: rest) head) := by
    have own : shareOf b t (head :: rest) head = _ := shareOf_head fifo
    have tail : EXE_TICKETS * (rest.length : Int) = 10 * rest.length := by rw [exe]
    have gap : FIFO_DIFFERECE * (EXE_TICKETS * (rest.length : Int)) = 1000 * rest.length := by rw [exe, difference]; ring
    have inRange : r (EXE_TICKETS + r (FIFO_DIFFERECE * (EXE_TICKETS * rest.length))) = shareOf b t (head :: rest) head := by
      rw [exact_ (FIFO_DIFFERECE * _) (by omega) (by omega), exact_ _ (by omega) (by omega), own]
    obtain ⟨last, isLast⟩ : ∃ last, t.last = some last := by rw [start]; cases rest.reverse <;> simp
    unfold deliverTicketsIn
    rw [loop, isLast]
    cases b with
    | default => exact absurd rfl queued
    | prs => exact absurd rfl fifo
    | frr | fcfs =>
      simp only [Option.bind_eq_bind, Option.bind_some, modify_proc_self, inRange]
      rw [exact_ (EXE_TICKETS * rest.length + 1) (by omega) (by omega), exact_ _ (by omega) (by omega)]
      rfl
  have others : ∀ p ∈ rest.reverse, EXE_TICKETS = shareOf b t (head :: rest) p := fun p member =>
    (shareOf_rest fifo ready.links.nodup (List.mem_reverse.1 member)).symm
  have sum := shareOf_rest_sum (t := t) fifo ready.links.nodup
  rw [given, assign_congr others, assign_append, List.map_reverse, List.sum_reverse, sum, List.map_cons, List.sum_cons, sum,
    zero_add, add_comm (shareOf b t (head :: rest) head)]
  rfl

/-- The delivery of the `PRS` kernel. -/
theorem deliverTicketsIn_prs (exact_ : Exact r) (ready : Ready t l) (nonempty : l ≠ []) :
    deliverTicketsIn r .prs t =
      some (assign (shareOf .prs t l) 0 l.reverse t, (l.map (shareOf .prs t l)).sum) := by
  have short := ready.length_le
  have enough : l.reverse.length < queueFuel := by rw [List.length_reverse]; exact ready.length_lt
  unfold NPROC at short
  have start : t.last = l.reverse.head? := by rw [ready.links.last_eq, List.head?_reverse]
  have sum : (l.reverse.map (shareOf .prs t l)).sum = (l.map (shareOf .prs t l)).sum := by
    rw [List.map_reverse, List.sum_reverse]
  have most := shareOf_sum (b := .prs) ready nonempty
  have start' : l.reverse = [] ++ l.reverse := (List.nil_append _).symm
  have count := countLoop_eq exact_ ready l.reverse start' enough (n := ⟨0, 0, 0⟩) (m := 0)
    ⟨by simp, by simp, by simp⟩ (by rw [List.length_reverse]; omega)
  have within : (classesOf t l).Within 64 := by
    obtain ⟨first, second, third⟩ := classesOf_within t l
    exact ⟨by omega, by omega, by omega⟩
  have shares : ∀ q ∈ l.reverse, 0 ≤ shareOf .prs t l q ∧
      ∀ old, (classesOf t l).tickets r (t.proc q).priority old = shareOf .prs t l q := fun q _ =>
    ⟨(shareOf_bounds ready q nonempty).1.le, fun old => Classes.tickets_eq exact_ within _ old⟩
  have hand := ticketLoop_eq exact_ l.reverse ready start' enough (le_refl 0) shares (by rw [sum]; omega)
  simp only [foldl_count, classesOf_reverse, zero_add] at count
  obtain ⟨last, isLast⟩ : ∃ last, t.last = some last := by
    rw [ready.links.last_eq]
    exact ⟨_, List.getLast?_eq_some_getLast nonempty⟩
  rw [← start, isLast] at count hand
  unfold deliverTicketsIn
  simp only [isLast, count, Option.bind_eq_bind, Option.bind_some, hand, sum, zero_add]

/-- The delivery hands out the shares from the tail of the queue on, whatever becomes of a number that is no `int`. -/
theorem deliverTicketsIn_eq (exact_ : Exact r) (queued : b ≠ .default) (ready : Ready t l) (nonempty : l ≠ []) :
    deliverTicketsIn r b t = some (assign (shareOf b t l) 0 l.reverse t, (l.map (shareOf b t l)).sum) := by
  by_cases prs : b = .prs
  · subst prs
    exact deliverTicketsIn_prs exact_ ready nonempty
  · obtain ⟨head, rest, rfl⟩ := List.exists_cons_of_ne_nil nonempty
    rw [List.reverse_cons]
    exact deliverTicketsIn_fifo exact_ queued prs ready

end

/-! ## The lottery -/

/-- The process holds the ticket. -/
def HoldsTicket (t : Table) (ticket : Int) (p : Slot) : Prop :=
  (t.proc p).firstTicketNum ≤ ticket ∧ ticket ≤ (t.proc p).firstTicketNum + (t.proc p).tickets - 1

/-- The tickets of the processes of `l` are a partition of `1 .. total`. -/
structure Partition (t : Table) (l : List Slot) (total : Int) : Prop where
  nonempty : ∀ p ∈ l, ∃ ticket, HoldsTicket t ticket p
  disjoint : ∀ p ∈ l, ∀ q ∈ l, p ≠ q → ∀ ticket, ¬ (HoldsTicket t ticket p ∧ HoldsTicket t ticket q)
  covers : ∀ ticket, (∃ p ∈ l, HoldsTicket t ticket p) ↔ 1 ≤ ticket ∧ ticket ≤ total

/-- The tickets of all processes of the list together. -/
def ticketsOf (t : Table) (l : List Slot) : Int := (l.map fun p => (t.proc p).tickets).sum

/-- The class of a priority in the `PRS` kernel. -/
def classOf (priority : Int) : Nat := if priority ≤ 0 then 0 else if priority = 1 then 1 else 2

section
variable {b : Build} {t : Table} {l : List Slot}

theorem Partition.of_tiled {total : Int} (tiled : Tiled (fun p => (t.proc p).firstTicketNum) (fun p => (t.proc p).tickets)
    0 l.reverse total) : Partition t l total where
  nonempty p member := by
    have := tiled.positive (List.mem_reverse.2 member)
    exact ⟨(t.proc p).firstTicketNum, by omega, by omega⟩
  disjoint p inside q inside' different ticket := fun ⟨holds, holds'⟩ =>
    different (tiled.unique (List.mem_reverse.2 inside) (List.mem_reverse.2 inside') holds holds')
  covers ticket := by
    constructor
    · rintro ⟨p, member, holds⟩
      have := tiled.inside (List.mem_reverse.2 member) holds
      omega
    · rintro ⟨low, high⟩
      obtain ⟨p, member, holds⟩ := tiled.exists_range (by omega : 0 < ticket) high
      exact ⟨p, List.mem_reverse.1 member, holds⟩

/-- The table after the delivery. -/
def delivered (b : Build) (t : Table) (l : List Slot) : Table := assign (shareOf b t l) 0 l.reverse t

theorem delivered_partition (ready : Ready t l) (nonempty : l ≠ []) :
    Partition (delivered b t l) l (l.map (shareOf b t l)).sum := by
  have tiled : Tiled (fun p => ((delivered b t l).proc p).firstTicketNum) (fun p => ((delivered b t l).proc p).tickets)
      0 l.reverse _ :=
    assign_tiled (List.nodup_reverse.2 ready.links.nodup) fun p _ => (shareOf_bounds ready p nonempty).1
  rw [zero_add, List.map_reverse, List.sum_reverse] at tiled
  exact .of_tiled tiled

theorem delivered_tickets (ready : Ready t l) {p : Slot} (member : p ∈ l) :
    ((delivered b t l).proc p).tickets = shareOf b t l p :=
  assign_tickets (List.nodup_reverse.2 ready.links.nodup) (List.mem_reverse.2 member)

theorem ticketsOf_delivered (ready : Ready t l) {ps : List Slot} (part : ∀ p ∈ ps, p ∈ l) :
    ticketsOf (delivered b t l) ps = (ps.map (shareOf b t l)).sum := by
  rw [ticketsOf, List.map_congr_left fun p member => delivered_tickets ready (part p member)]

/-- The head outweighs the rest of the queue. -/
theorem head_dominates (fifo : b ≠ .prs) {head : Slot} {rest : List Slot} (ready : Ready t (head :: rest)) :
    FIFO_DIFFERECE * ticketsOf (delivered b t (head :: rest)) rest <
      ((delivered b t (head :: rest)).proc head).tickets := by
  have exe : EXE_TICKETS = 10 := rfl
  rw [ticketsOf_delivered ready fun p member => List.mem_cons_of_mem head member, delivered_tickets ready List.mem_cons_self,
    shareOf_head fifo, shareOf_rest_sum fifo ready.links.nodup]
  omega

/-- What the processes of the classes below class 1 or 2 hold. -/
theorem sum_below (ps : List Slot) {share : Slot → Int} {c : Nat} {least second : Int} (class_ : c = 1 ∨ c = 2)
    (low : ∀ p, (t.proc p).priority ≤ 0 → share p = least) (one : ∀ p, (t.proc p).priority = 1 → share p = second) :
    ((ps.filter fun p => classOf (t.proc p).priority < c).map share).sum =
      least * (classesOf t ps).priority1Procs + if c = 2 then second * (classesOf t ps).priority2Procs else 0 := by
  induction ps with
  | nil => simp [classesOf]
  | cons p ps ih =>
    rw [classesOf] at ih ⊢
    simp only at ih ⊢
    by_cases lowest : (t.proc p).priority ≤ 0
    · have notOne : (t.proc p).priority ≠ 1 := by omega
      have below : classOf (t.proc p).priority < c := by rw [classOf, if_pos lowest]; omega
      rw [List.filter_cons_of_pos (by simpa using below), List.map_cons, List.sum_cons, ih, low p lowest,
        List.countP_cons_of_pos (by simpa using lowest), List.countP_cons_of_neg (by simpa using notOne)]
      push_cast
      ring
    by_cases isOne : (t.proc p).priority = 1
    · rw [List.countP_cons_of_neg (by simpa using lowest), List.countP_cons_of_pos (by simpa using isOne)]
      rcases class_ with rfl | rfl
      · rw [List.filter_cons_of_neg (by simp [classOf, isOne]), ih]
        simp
      · rw [List.filter_cons_of_pos (by simp [classOf, isOne]), List.map_cons, List.sum_cons, ih, one p isOne]
        push_cast
        ring
    · rw [List.countP_cons_of_neg (by simpa using lowest), List.countP_cons_of_neg (by simpa using isOne),
        List.filter_cons_of_neg (by simp only [classOf, lowest, isOne, if_false, decide_eq_true_eq]; omega), ih]

/-- A process outweighs all processes of the classes below its own together. -/
theorem class_dominates (ready : Ready t l) {p : Slot} (member : p ∈ l) (high : 1 ≤ (t.proc p).priority) :
    ticketsOf (delivered .prs t l) (l.filter fun q => classOf (t.proc q).priority < classOf (t.proc p).priority) <
      ((delivered .prs t l).proc p).tickets := by
  have short := ready.length_le
  unfold NPROC at short
  obtain ⟨first, second, third⟩ := classesOf_within t l
  have exe : EXE_TICKETS = 10 := rfl
  have difference : FIFO_DIFFERECE = 100 := rfl
  have notLowest : ¬ (t.proc p).priority ≤ 0 := by omega
  have class_ : classOf (t.proc p).priority = 1 ∨ classOf (t.proc p).priority = 2 := by
    rw [classOf, if_neg notLowest]
    split_ifs <;> simp
  have low : ∀ q, (t.proc q).priority ≤ 0 → shareOf .prs t l q = EXE_TICKETS := by
    intro q lowest
    rw [shareOf, Classes.tickets, if_pos lowest]
  have one : ∀ q, (t.proc q).priority = 1 →
      shareOf .prs t l q = EXE_TICKETS + EXE_TICKETS * (classesOf t l).priority1Procs * FIFO_DIFFERECE := by
    intro q isOne
    rw [shareOf, Classes.tickets, if_neg (by omega), if_pos isOne]
    rfl
  rw [ticketsOf_delivered ready fun q inside => (List.mem_filter.1 inside).1, delivered_tickets ready member,
    sum_below l class_ low one, shareOf, Classes.tickets, if_neg notLowest, exe, difference]
  simp only [id]
  generalize (classesOf t l).priority1Procs = n1 at *
  generalize (classesOf t l).priority2Procs = n2 at *
  by_cases isOne : (t.proc p).priority = 1
  · rw [if_pos isOne, show classOf (t.proc p).priority = 1 by simp [classOf, isOne]]
    simp only [OfNat.one_ne_ofNat, if_false]
    omega
  · rw [if_neg isOne, if_pos (show (t.proc p).priority ≥ 2 by omega), show classOf (t.proc p).priority = 2 by
      simp [classOf, isOne, notLowest], if_pos rfl]
    nlinarith

/-- What the delivery does to a queue of `RUNNABLE` processes. -/
theorem deliver_eq (queued : b.queued = true) (ready : Ready t l) (nonempty : l ≠ []) :
    deliverTicketsToFIFOProcs b t = some (delivered b t l, (l.map (shareOf b t l)).sum) := by
  have notDefault : b ≠ .default := by rintro rfl; cases queued
  exact deliverTicketsIn_eq exact_id notDefault ready nonempty

/-- The delivery is a weighted partition of the tickets: every queued process holds some, no ticket has two holders, and
the tickets held are those from 1 to `totalTickets`. No sum or product on the way is out of the range of an `int`: the
delivery comes out the same whatever an operation with overflow would give. The head of an `FRR` or `FCFS` queue
outweighs all others a hundred times, a process of a higher class in a `PRS` queue all of the lower classes. -/
theorem delivery_weighted_partition (queued : b.queued = true) (ready : Ready t l) (nonempty : l ≠ []) :
    ∃ t' total, deliverTicketsToFIFOProcs b t = some (t', total) ∧
      (∀ r, Exact r → deliverTicketsIn r b t = some (t', total)) ∧ total < 2 ^ 31 ∧
      SameQueue t t' ∧ (∀ p, (t'.proc p).priority = (t.proc p).priority) ∧ Partition t' l total ∧
      (b ≠ .prs → ∀ head rest, l = head :: rest → FIFO_DIFFERECE * ticketsOf t' rest < (t'.proc head).tickets) ∧
      (b = .prs → ∀ p ∈ l, 1 ≤ (t'.proc p).priority →
        ticketsOf t' (l.filter fun q => classOf (t'.proc q).priority < classOf (t'.proc p).priority) <
          (t'.proc p).tickets) := by
  have notDefault : b ≠ .default := by rintro rfl; cases queued
  have small : (l.map (shareOf b t l)).sum < 2 ^ 31 := lt_of_le_of_lt (shareOf_sum ready nonempty) (by norm_num)
  have priority : ∀ p, ((delivered b t l).proc p).priority = (t.proc p).priority :=
    fun p => assign_blind Proc.priority fun _ _ _ => rfl
  refine ⟨delivered b t l, _, deliver_eq queued ready nonempty, fun r exact_ => deliverTicketsIn_eq exact_ notDefault ready nonempty,
    small, assign_same _ _ _ _, priority, delivered_partition ready nonempty, ?_, ?_⟩
  · rintro fifo head rest rfl
    exact head_dominates fifo ready
  · rintro rfl p member high
    simp only [priority] at high ⊢
    exact class_dominates ready member high

end

/-- A queue of two processes, the second of the highest class. -/
def twoQueued (b : Build) : Table :=
  makeRunnable b (makeRunnable b (Table.zero.modify 1 fun d => { d with priority := 2 }) 0) 1

theorem twoQueued_ready {b : Build} (queued : b.queued = true) : Ready (twoQueued b) [0, 1] := by
  have zero : Ready Table.zero [] := ⟨IsDList.empty _ _ (fun _ => rfl) fun _ => rfl, by simp⟩
  have first := (zero.modify_off (p := 1) (by simp) (fun d => { d with priority := 2 }) rfl rfl).makeRunnable queued
    (p := 0) (by simp)
  exact first.makeRunnable queued (by decide)

/-- The process of priority 2 gets more tickets than the one of priority 0. -/
theorem delivery_weighted_partition_two : ∃ t' total, deliverTicketsToFIFOProcs .prs (twoQueued .prs) = some (t', total) ∧
    deliverTicketsIn int .prs (twoQueued .prs) = some (t', total) ∧ Partition t' [0, 1] total ∧
    ticketsOf t' [0] < (t'.proc 1).tickets := by
  obtain ⟨t', total, delivers, exact_, _, _, priority, partition, _, dominates⟩ :=
    delivery_weighted_partition (b := .prs) rfl (twoQueued_ready (b := .prs) rfl) (by simp)
  refine ⟨t', total, delivers, exact_ int exact_int, partition, ?_⟩
  have lower := dominates rfl 1 (by simp) (by rw [priority]; decide)
  simp only [priority] at lower
  exact lower

end Xv6.Sched
