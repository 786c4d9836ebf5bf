import Mathlib

/-!
# Spin locks and circular waits

Agents execute programs that acquire and release locks; `acquire` spins while
another agent holds the lock. An agent waits for another when its next
instruction is to acquire a lock that the other one holds. There is no circular
wait in a state for which the locks can be ranked so that every waiting agent
waits for a lock that ranks above all it holds; the ranking may depend on the
state. Locks and agents are arbitrary types.
-/

namespace Xv6.Lib.Locks

/-- An instruction of a program, as far as locks go. -/
inductive Instr (L : Type) where
  | acquire (l : L)
  | release (l : L)
  deriving DecidableEq, Repr

/-- Who holds each lock, and what every agent has yet to execute. -/
structure Machine (L C : Type) where
  holder : L → Option C
  prog : C → List (Instr L)

section
variable {L C : Type} [DecidableEq L] [DecidableEq C] {m m' : Machine L C} {c c' : C} {l l' : L}
  {rest : List (Instr L)}

/-- Lock `l` changes hands and `c` goes on with `rest`. -/
def Machine.set (m : Machine L C) (l : L) (holder : Option C) (c : C) (rest : List (Instr L)) : Machine L C :=
  ⟨Function.update m.holder l holder, Function.update m.prog c rest⟩

/-- One instruction of `c`: `none` while it has to wait. -/
def Machine.advance (m : Machine L C) (c : C) : Option (Machine L C) :=
  match m.prog c with
  | [] => none
  | .acquire l :: rest => if m.holder l = none then some (m.set l (some c) c rest) else none
  | .release l :: rest => if m.holder l = some c then some (m.set l none c rest) else none

/-- What an instruction can do. -/
theorem Machine.advance_cases (taken : m.advance c = some m') :
    ∃ l rest, (m.prog c = .acquire l :: rest ∧ m.holder l = none ∧ m' = m.set l (some c) c rest) ∨
      (m.prog c = .release l :: rest ∧ m.holder l = some c ∧ m' = m.set l none c rest) := by
  unfold Machine.advance at taken
  split at taken
  · cases taken
  · rename_i l rest code
    split at taken
    · rename_i free
      exact ⟨l, rest, .inl ⟨code, free, (Option.some.inj taken).symm⟩⟩
    · cases taken
  · rename_i l rest code
    split at taken
    · rename_i mine
      exact ⟨l, rest, .inr ⟨code, mine, (Option.some.inj taken).symm⟩⟩
    · cases taken

@[simp] theorem set_prog_self {o : Option C} : (m.set l o c rest).prog c = rest := by simp [Machine.set]

theorem set_prog_ne {o : Option C} (other : c' ≠ c) : (m.set l o c rest).prog c' = m.prog c' := by
  simp [Machine.set, other]

@[simp] theorem set_holder_self {o : Option C} : (m.set l o c rest).holder l = o := by simp [Machine.set]

theorem set_holder_ne {o : Option C} (other : l' ≠ l) : (m.set l o c rest).holder l' = m.holder l' := by
  simp [Machine.set, other]

/-! ## Waiting -/

omit [DecidableEq L] [DecidableEq C]

/-- `c` waits for a lock that `c'` holds. -/
def Machine.WaitsFor (m : Machine L C) (c c' : C) : Prop :=
  ∃ l rest, m.prog c = .acquire l :: rest ∧ m.holder l = some c'

/-- A cycle of agents each waiting for a lock that the next one holds. -/
def Machine.CircularWait (m : Machine L C) : Prop := ∃ c, Relation.TransGen m.WaitsFor c c

/-- Every waiting agent waits for a lock that ranks above the ones it holds. -/
def Machine.Ranked (m : Machine L C) (rank : L → Nat) : Prop :=
  ∀ c l rest, m.prog c = .acquire l :: rest → ∀ l', m.holder l' = some c → rank l' < rank l

/-- Along a chain of waits the rank of the awaited lock grows. -/
theorem rank_grows {rank : L → Nat} (ranked : m.Ranked rank) (chain : Relation.TransGen m.WaitsFor c c')
    (code : m.prog c = .acquire l :: rest) {rest' : List (Instr L)} (code' : m.prog c' = .acquire l' :: rest') :
    rank l < rank l' := by
  induction chain generalizing l' rest' with
  | single waits =>
    obtain ⟨k, _, own, held⟩ := waits
    cases own.symm.trans code
    exact ranked _ l' rest' code' _ held
  | tail _ waits ih =>
    obtain ⟨k, tail, own, held⟩ := waits
    exact (ih own).trans (ranked _ l' rest' code' k held)

theorem no_circularWait_of_ranked {rank : L → Nat} (ranked : m.Ranked rank) : ¬ m.CircularWait := by
  rintro ⟨c, cycle⟩
  obtain ⟨d, waits, _⟩ := Relation.TransGen.head'_iff.1 cycle
  obtain ⟨l, rest, code, _⟩ := waits
  exact lt_irrefl _ (rank_grows ranked cycle code code)

end

/-! ## Balanced programs -/

section
variable {L : Type} [DecidableEq L] {leaf : L → Bool} {h : L → Bool} {a b : List (Instr L)} {l l' : L}

/-- From the locks `h`, the program takes none twice, takes none under a leaf lock, releases what it
holds, and ends with no lock held. -/
def Balanced (leaf : L → Bool) : (L → Bool) → List (Instr L) → Prop
  | h, [] => ∀ l, h l = false
  | h, .acquire l :: rest =>
    h l = false ∧ (∀ l', leaf l' = true → h l' = false) ∧ Balanced leaf (Function.update h l true) rest
  | h, .release l :: rest => h l = true ∧ Balanced leaf (Function.update h l false) rest

theorem Balanced.append (first : Balanced leaf h a) (second : Balanced leaf (fun _ => false) b) :
    Balanced leaf h (a ++ b) := by
  induction a generalizing h with
  | nil =>
    have none : h = fun _ => false := funext first
    rw [none]
    exact second
  | cons i a ih =>
    cases i with
    | acquire l => exact ⟨first.1, first.2.1, ih first.2.2⟩
    | release l => exact ⟨first.1, ih first.2⟩

/-- Before it releases `keep`, the program acquires `want`. -/
def Ahead (want keep : L) : List (Instr L) → Prop
  | [] => False
  | .acquire l :: rest => l = want ∨ Ahead want keep rest
  | .release l :: rest => l ≠ keep ∧ Ahead want keep rest

end

/-! ## Machines of balanced programs -/

section
variable {L C : Type} [DecidableEq L] [DecidableEq C] {leaf : L → Bool} {m m' : Machine L C} {c c' : C} {l l' : L}

/-- The locks that `c` holds. -/
def Machine.holds (m : Machine L C) (c : C) : L → Bool := fun l => m.holder l = some c

/-- Every agent executes the rest of a balanced program. -/
def Machine.Sound (leaf : L → Bool) (m : Machine L C) : Prop := ∀ c, Balanced leaf (m.holds c) (m.prog c)

omit [DecidableEq L] in
theorem holds_false_iff : m.holds c l = false ↔ m.holder l ≠ some c := decide_eq_false_iff_not

theorem set_holds {o : Option C} {rest : List (Instr L)} (d : C) :
    (m.set l o c rest).holds d = Function.update (m.holds d) l (decide (o = some d)) := by
  funext k
  rcases eq_or_ne k l with rfl | ne
  · simp [Machine.holds]
  · simp [Machine.holds, set_holder_ne ne, ne]

section
variable (sound : m.Sound leaf)
include sound

/-- A lock that changes hands between nobody and `c` is held by no other agent. -/
theorem Machine.Sound.set {o : Option C} {rest : List (Instr L)}
    (balanced : Balanced leaf (Function.update (m.holds c) l (decide (o = some c))) rest)
    (before : ∀ d, d ≠ c → m.holder l ≠ some d) (after : ∀ d, d ≠ c → o ≠ some d) :
    (m.set l o c rest).Sound leaf := by
  intro d
  rw [set_holds]
  rcases eq_or_ne d c with rfl | other
  · rw [set_prog_self]
    exact balanced
  · have same : Function.update (m.holds d) l (decide (o = some d)) = m.holds d := by
      rw [decide_eq_false (after d other), ← holds_false_iff.2 (before d other), Function.update_eq_self]
    rw [same, set_prog_ne other]
    exact sound d

/-- An instruction keeps every agent's program balanced. -/
theorem Machine.Sound.advance (taken : m.advance c = some m') : m'.Sound leaf := by
  have balanced := sound c
  obtain ⟨l, rest, ⟨code, free, rfl⟩ | ⟨code, mine, rfl⟩⟩ := Machine.advance_cases taken
  · rw [code] at balanced
    apply sound.set
    · simpa using balanced.2.2
    · simp [free]
    · intro d other same
      exact other (Option.some.inj same).symm
  · rw [code] at balanced
    apply sound.set
    · simpa using balanced.2
    · intro d other same
      exact other (Option.some.inj (same.symm.trans mine))
    · simp

/-- What a sound machine says of a waiting agent. -/
theorem Machine.Sound.waiting {rest : List (Instr L)} (code : m.prog c = .acquire l :: rest) :
    m.holder l ≠ some c ∧ ∀ l', leaf l' = true → m.holder l' ≠ some c := by
  have balanced := sound c
  rw [code] at balanced
  exact ⟨holds_false_iff.1 balanced.1, fun l' inner => holds_false_iff.1 (balanced.2.1 l' inner)⟩

/-- An agent without locks can be given any balanced program. -/
theorem Machine.Sound.setProg (idle : ∀ l, m.holder l ≠ some c) {code : List (Instr L)}
    (balanced : Balanced leaf (fun _ => false) code) :
    Machine.Sound leaf ⟨m.holder, Function.update m.prog c code⟩ := by
  intro d
  show Balanced leaf (m.holds d) (Function.update m.prog c code d)
  rcases eq_or_ne d c with rfl | other
  · have none : m.holds d = fun _ => false := funext fun l => holds_false_iff.2 (idle l)
    rw [none, Function.update_self]
    exact balanced
  · rw [Function.update_of_ne other]
    exact sound d

/-- The program of an agent without locks is balanced from none. -/
theorem Machine.Sound.idle (idle : ∀ l, m.holder l ≠ some c) :
    Balanced leaf (fun _ => false) (m.prog c) := by
  have none : m.holds c = fun _ => false := funext fun l => holds_false_iff.2 (idle l)
  rw [← none]
  exact sound c

end

end

end Xv6.Lib.Locks
