import Xv6.Lib.Run

/-!
# What has happened since

Statements about the past of a run: an event of one kind has occurred and none of
another kind after it, or every entry stands in a relation to the part before it. The
rule for a history that gets one step longer is all that invariants over runs need.
-/

namespace Xv6.Lib

variable {α : Type*} {A B : α → Prop} {tr : List α} {x : α}

/-- Some `A` has occurred, and no `B` after it. -/
def Since (A B : α → Prop) (tr : List α) : Prop := ∃ pre x post, tr = pre ++ x :: post ∧ A x ∧ ∀ y ∈ post, ¬ B y

theorem not_since_nil : ¬ Since A B [] := by
  rintro ⟨pre, x, post, empty, _⟩
  simp at empty

theorem since_concat : Since A B (tr ++ [x]) ↔ A x ∨ Since A B tr ∧ ¬ B x := by
  constructor
  · rintro ⟨pre, y, post, split, isA, noB⟩
    rcases List.eq_nil_or_concat post with rfl | ⟨post', z, rfl⟩
    · obtain ⟨rfl, rfl⟩ := List.append_singleton_inj.1 split
      exact .inl isA
    · rw [List.concat_eq_append, ← List.cons_append, ← List.append_assoc] at split
      obtain ⟨rfl, rfl⟩ := List.append_singleton_inj.1 split
      refine .inr ⟨⟨pre, y, post', rfl, isA, fun w mem => noB w (by simp [mem])⟩, noB x (by simp)⟩
  · rintro (isA | ⟨⟨pre, y, post, rfl, isA, noB⟩, notB⟩)
    · exact ⟨tr, x, [], rfl, isA, by simp⟩
    · refine ⟨pre, y, post ++ [x], by simp, isA, fun w mem => ?_⟩
      rcases List.mem_append.1 mem with old | new
      · exact noB w old
      · rw [List.mem_singleton.1 new]
        exact notB

theorem since_map {β : Type*} {f : β → α} {tr : List β} :
    Since A B (tr.map f) ↔ Since (fun x => A (f x)) (fun x => B (f x)) tr := by
  induction tr using List.reverseRecOn with
  | nil => simp [not_since_nil]
  | append_singleton tr x ih => rw [List.map_append, List.map_singleton, since_concat, since_concat, ih]

/-- Every entry of the history stands in the relation `φ` to the part before it. -/
def AtEach (φ : List α → α → Prop) (tr : List α) : Prop := ∀ pre x post, tr = pre ++ x :: post → φ pre x

theorem atEach_nil {φ : List α → α → Prop} : AtEach φ [] := by
  intro pre x post split
  simp at split

theorem AtEach.concat {φ : List α → α → Prop} (before : AtEach φ tr) (last : φ tr x) : AtEach φ (tr ++ [x]) := by
  intro pre y post split
  rcases List.eq_nil_or_concat post with rfl | ⟨post, z, rfl⟩
  · obtain ⟨rfl, rfl⟩ := List.append_singleton_inj.1 split
    exact last
  · rw [List.concat_eq_append, ← List.cons_append, ← List.append_assoc] at split
    obtain ⟨rfl, rfl⟩ := List.append_singleton_inj.1 split
    exact before pre y post rfl

theorem AtEach.mono {φ ψ : List α → α → Prop} (each : AtEach φ tr) (imp : ∀ pre x, φ pre x → ψ pre x) : AtEach ψ tr :=
  fun pre x post split => imp pre x (each pre x post split)

/-- A run is the execution of its events. -/
theorem Run.exec_eq {σ ε : Type*} {step : σ → ε → Option σ} {init s : σ} {tr : List (σ × ε)} (run : Run step init tr s) :
    exec step init (tr.map Prod.snd) = some s := by
  induction run with
  | start => rfl
  | next _ taken ih => rw [List.map_append, exec_append ih, List.map_singleton, exec, taken, Option.bind_some, exec]

end Xv6.Lib
