import Mathlib

/-!
# Runs of a step function

A system is a partial step function `step : σ → ε → Option σ`: `none` says that
the event is not enabled in the state. A run records, for every step taken, the
state it was taken in and its event, so a condition on the steps of a run and a
property of the states it visits are both statements about the recorded list.
Nothing here depends on a particular system.
-/

namespace Xv6.Lib

-- the parties of a small system are numerals
instance neZero_one : NeZero 1 := ⟨by decide⟩

instance neZero_two : NeZero 2 := ⟨by decide⟩

section
variable {σ ε : Type*} {step : σ → ε → Option σ} {init s s' : σ} {e : ε} {tr : List (σ × ε)}

/-- The runs of `step` from `init`: the steps taken, and the state reached. -/
inductive Run (step : σ → ε → Option σ) (init : σ) : List (σ × ε) → σ → Prop where
  | start : Run step init [] init
  | next {tr : List (σ × ε)} {s s' : σ} {e : ε} :
      Run step init tr s → step s e = some s' → Run step init (tr ++ [(s, e)]) s'

/-- The states a run visits, the last one included. -/
def visited (tr : List (σ × ε)) (s : σ) : List σ := tr.map Prod.fst ++ [s]

theorem mem_visited {t : σ} : t ∈ visited tr s ↔ (∃ e, (t, e) ∈ tr) ∨ t = s := by
  simp [visited]

/-- **The invariant rule.** What holds at the start and is kept by every step that
meets `ok` holds at the end of a run all of whose steps meet `ok`. -/
theorem Run.invariant (ok : σ → ε → Prop) (Inv : σ → Prop) (start : Inv init)
    (keep : ∀ s e s', Inv s → ok s e → step s e = some s' → Inv s')
    (run : Run step init tr s) (guard : ∀ q ∈ tr, ok q.1 q.2) : Inv s := by
  induction run with
  | start => exact start
  | @next tr s s' e run taken ih =>
    have before : Inv s := ih fun q hq => guard q (List.mem_append_left _ hq)
    exact keep s e s' before (guard (s, e) (by simp)) taken

/-- The invariant rule without a condition on the steps. -/
theorem Run.invariant_all (Inv : σ → Prop) (start : Inv init)
    (keep : ∀ s e s', Inv s → step s e = some s' → Inv s') (run : Run step init tr s) : Inv s :=
  run.invariant (fun _ _ => True) Inv start (fun s e s' inv _ => keep s e s' inv) (fun _ _ => trivial)

/-- The invariant rule for what is said about the state reached and the steps that led to it. -/
theorem Run.history (Inv : List (σ × ε) → σ → Prop) (start : Inv [] init)
    (keep : ∀ tr s e s', Inv tr s → step s e = some s' → Inv (tr ++ [(s, e)]) s') (run : Run step init tr s) :
    Inv tr s := by
  induction run with
  | start => exact start
  | next _ taken ih => exact keep _ _ _ _ ih taken

/-- Every recorded step was taken, from a state that a prefix of the run reached. -/
theorem Run.prefix_of_mem (run : Run step init tr s) {t : σ} (member : (t, e) ∈ tr) :
    ∃ pre rest t', tr = pre ++ (t, e) :: rest ∧ Run step init pre t ∧ step t e = some t' := by
  induction run with
  | start => simp at member
  | @next tr s s' e' run taken ih =>
    rcases List.mem_append.1 member with old | new
    · obtain ⟨pre, rest, t', rfl, reached, took⟩ := ih old
      exact ⟨pre, rest ++ [(s, e')], t', by simp, reached, took⟩
    · obtain ⟨rfl, rfl⟩ := Prod.mk.inj (List.mem_singleton.1 new)
      exact ⟨tr, [], s', rfl, run, taken⟩

/-- Every visited state is reached by a run whose steps are steps of this one. -/
theorem Run.prefix_of_visited (run : Run step init tr s) {t : σ} (member : t ∈ visited tr s) :
    ∃ pre rest, tr = pre ++ rest ∧ Run step init pre t := by
  rcases mem_visited.1 member with ⟨e, inside⟩ | rfl
  · obtain ⟨pre, rest, _, rfl, reached, _⟩ := run.prefix_of_mem inside
    exact ⟨pre, _, rfl, reached⟩
  · exact ⟨tr, [], by simp, run⟩

/-- The state a recorded step leads to is visited too. -/
theorem Run.visits_next (run : Run step init tr s) {t t' : σ} (member : (t, e) ∈ tr)
    (taken : step t e = some t') : t' ∈ visited tr s := by
  induction run with
  | start => simp at member
  | @next tr s s' e' run took ih =>
    rcases List.mem_append.1 member with old | new
    · rcases mem_visited.1 (ih old) with ⟨f, inside⟩ | rfl
      · exact mem_visited.2 (.inl ⟨f, List.mem_append_left _ inside⟩)
      · exact mem_visited.2 (.inl ⟨e', by simp⟩)
    · obtain ⟨rfl, rfl⟩ := Prod.mk.inj (List.mem_singleton.1 new)
      rw [took] at taken
      exact mem_visited.2 (.inr (Option.some.inj taken).symm)

/-- Runs compose. -/
theorem Run.trans {tr' : List (σ × ε)} (first : Run step init tr s) (second : Run step s tr' s') :
    Run step init (tr ++ tr') s' := by
  induction second with
  | start => simpa using first
  | next _ taken ih => simpa using ih.next taken

/-- A run splits at any point. -/
theorem Run.split {tr' : List (σ × ε)} (run : Run step init (tr ++ tr') s) :
    ∃ t, Run step init tr t ∧ Run step t tr' s := by
  induction tr' using List.reverseRecOn generalizing s with
  | nil => exact ⟨s, by simpa using run, .start⟩
  | append_singleton tr' q ih =>
    rw [← List.append_assoc] at run
    generalize whole : tr ++ tr' ++ [q] = all at run
    cases run with
    | start => simp at whole
    | next run taken =>
      obtain ⟨rfl, rfl⟩ := List.append_singleton_inj.1 whole
      obtain ⟨t, first, second⟩ := ih run
      exact ⟨t, first, second.next taken⟩

theorem Run.of_nil (run : Run step init [] s) : s = init := by
  generalize empty : ([] : List (σ × ε)) = tr at run
  cases run with
  | start => rfl
  | next => simp at empty

/-- A run that is not empty starts with its first step. -/
theorem Run.uncons {t : σ} (run : Run step init ((t, e) :: tr) s) :
    t = init ∧ ∃ u, step init e = some u ∧ Run step u tr s := by
  obtain ⟨u, first, rest⟩ := (show Run step init ([(t, e)] ++ tr) s from run).split
  generalize single : [(t, e)] = one at first
  cases first with
  | start => cases single
  | @next tr' t' u e' run taken =>
    obtain ⟨rfl, same⟩ := List.append_singleton_inj.1 (show [] ++ [(t, e)] = tr' ++ [(t', e')] from single)
    cases same
    cases run.of_nil
    exact ⟨rfl, u, taken, rest⟩

/-- A run splits around any of its steps. -/
theorem Run.around {t : σ} {pre post : List (σ × ε)} (run : Run step init (pre ++ (t, e) :: post) s) :
    Run step init pre t ∧ ∃ u, step t e = some u ∧ Run step u post s := by
  obtain ⟨t', first, rest⟩ := run.split
  obtain ⟨rfl, taken⟩ := rest.uncons
  exact ⟨first, taken⟩

/-- Executing a list of events from a state, if each is enabled in turn. -/
def exec (step : σ → ε → Option σ) (s : σ) : List ε → Option σ
  | [] => some s
  | e :: es => (step s e).bind fun s' => exec step s' es

/-- The steps that executing a list of events takes, as a run records them. -/
def record (step : σ → ε → Option σ) (s : σ) : List ε → List (σ × ε)
  | [] => []
  | e :: es => (s, e) :: match step s e with
    | some s' => record step s' es
    | none => []

/-- An execution is a run. -/
theorem run_of_exec {es : List ε} (done : exec step s es = some s') : Run step s (record step s es) s' := by
  induction es generalizing s with
  | nil => cases done; exact .start
  | cons e es ih =>
    simp only [exec, Option.bind_eq_some_iff] at done
    obtain ⟨t, taken, rest⟩ := done
    have first : Run step s [(s, e)] t := Run.start.next taken
    simpa [record, taken] using first.trans (ih rest)

theorem exec_append {es es' : List ε} (done : exec step s es = some s') :
    exec step s (es ++ es') = exec step s' es' := by
  induction es generalizing s with
  | nil => cases done; rfl
  | cons e es ih =>
    simp only [exec, Option.bind_eq_some_iff] at done
    obtain ⟨t, taken, rest⟩ := done
    simp [exec, taken, ih rest]

theorem record_append {es es' : List ε} (done : exec step s es = some s') :
    record step s (es ++ es') = record step s es ++ record step s' es' := by
  induction es generalizing s with
  | nil => cases done; rfl
  | cons e es ih =>
    simp only [exec, Option.bind_eq_some_iff] at done
    obtain ⟨t, taken, rest⟩ := done
    simp [record, taken, ih rest]

/-- The steps of an execution have its events. -/
theorem record_events {es : List ε} (done : exec step s es = some s') :
    (record step s es).map Prod.snd = es := by
  induction es generalizing s with
  | nil => rfl
  | cons e es ih =>
    simp only [exec, Option.bind_eq_some_iff] at done
    obtain ⟨t, taken, rest⟩ := done
    simp [record, taken, ih rest]

end

end Xv6.Lib
