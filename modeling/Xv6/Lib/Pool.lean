import Mathlib

/-!
# Items that are free or held

A pool has a list of free items; its clients hold items in places, at most one in each. An
item taken from the list and put in a place, or dropped from a place and pushed on the
list, is neither lost nor there twice.
-/

namespace Xv6.Lib.Pool

variable {ι α : Type*} [DecidableEq ι] {holds : ι → Option α} {free : List α} {i : ι} {p q : α}

/-- No item is free twice, held twice, or free and held. -/
structure Sound (holds : ι → Option α) (free : List α) : Prop where
  nodup : free.Nodup
  apart : ∀ i p, holds i = some p → p ∉ free
  once : ∀ i j p, holds i = some p → holds j = some p → i = j

/-- The item is free or held. -/
def Has (holds : ι → Option α) (free : List α) (p : α) : Prop := p ∈ free ∨ ∃ i, holds i = some p

section
omit [DecidableEq ι]

/-- Taking the first free item. -/
theorem Sound.pop (sound : Sound holds (p :: free)) : Sound holds free ∧ ¬ Has holds free p := by
  obtain ⟨fresh, nodup⟩ := List.nodup_cons.1 sound.nodup
  refine ⟨⟨nodup, fun i q held free => sound.apart i q held (List.mem_cons_of_mem p free), sound.once⟩, ?_⟩
  rintro (free | ⟨i, held⟩)
  · exact fresh free
  · exact sound.apart i p held List.mem_cons_self

/-- Giving an item back that nobody has. -/
theorem Sound.push (sound : Sound holds free) (fresh : ¬ Has holds free p) : Sound holds (p :: free) where
  nodup := List.nodup_cons.2 ⟨fun free => fresh (.inl free), sound.nodup⟩
  apart i q held member := by
    rcases List.mem_cons.1 member with rfl | free
    · exact fresh (.inr ⟨i, held⟩)
    · exact sound.apart i q held free
  once := sound.once

theorem has_cons : Has holds (p :: free) q ↔ q = p ∨ Has holds free q := by
  rw [Has, Has, List.mem_cons, or_assoc]

end

theorem update_eq_some {o : Option α} {j : ι} :
    Function.update holds i o j = some q ↔ (j = i ∧ o = some q) ∨ (j ≠ i ∧ holds j = some q) := by
  by_cases same : j = i
  · subst same
    simp
  · simp [same]

theorem update_none_eq_some {j : ι} : Function.update holds i none j = some q ↔ j ≠ i ∧ holds j = some q := by
  rw [update_eq_some]
  simp

/-- Emptying a place. -/
theorem Sound.drop (sound : Sound holds free) (held : holds i = some p) :
    Sound (Function.update holds i none) free ∧ ¬ Has (Function.update holds i none) free p := by
  refine ⟨⟨sound.nodup, fun j q held => ?_, fun j k q held held' => ?_⟩, ?_⟩
  · obtain ⟨_, held⟩ := update_none_eq_some.1 held
    exact sound.apart j q held
  · obtain ⟨_, held⟩ := update_none_eq_some.1 held
    obtain ⟨_, held'⟩ := update_none_eq_some.1 held'
    exact sound.once j k q held held'
  · rintro (free | ⟨j, held'⟩)
    · exact sound.apart i p held free
    · obtain ⟨different, held'⟩ := update_none_eq_some.1 held'
      exact different (sound.once j i p held' held)

theorem has_drop (held : holds i = some p) :
    q = p ∨ Has (Function.update holds i none) free q ↔ Has holds free q := by
  constructor
  · rintro (rfl | member | ⟨j, held'⟩)
    · exact .inr ⟨i, held⟩
    · exact .inl member
    · obtain ⟨_, held'⟩ := update_none_eq_some.1 held'
      exact .inr ⟨j, held'⟩
  · rintro (member | ⟨j, held'⟩)
    · exact .inr (.inl member)
    · by_cases same : j = i
      · subst same
        exact .inl (Option.some.inj (held'.symm.trans held))
      · exact .inr (.inr ⟨j, update_none_eq_some.2 ⟨same, held'⟩⟩)

end Xv6.Lib.Pool
