import Mathlib

/-!
# Tables with empty slots

A table is a list of slots, each empty or with a key and a value. An entry goes to an
empty slot or to the end, and a removed entry leaves an empty slot. If a key is only
entered when no slot has it, the table is a finite map.
-/

namespace Xv6.Lib.Slots

variable {κ ν : Type*} {l : List (Option (κ × ν))} {f : κ → Option ν} {i j : Nat} {k : κ} {v : ν}

/-- Slot `j` becomes `x`; it may be the one behind the last. -/
def put (l : List (Option (κ × ν))) (j : Nat) (x : Option (κ × ν)) : List (Option (κ × ν)) := l.take j ++ x :: l.drop (j + 1)

theorem getElem?_put {x : Option (κ × ν)} (le : j ≤ l.length) : (put l j x)[i]? = if i = j then some x else l[i]? := by
  have length : (l.take j).length = j := by rw [List.length_take, Nat.min_eq_left le]
  unfold put
  rcases Nat.lt_trichotomy i j with before | rfl | after
  · rw [if_neg (by omega), List.getElem?_append_left (by omega), List.getElem?_take_of_lt before]
  · rw [if_pos rfl, List.getElem?_append_right (by omega), length, Nat.sub_self, List.getElem?_cons_zero]
  · rw [if_neg (by omega), List.getElem?_append_right (by omega), length, show i - j = (i - j - 1) + 1 by omega,
      List.getElem?_cons_succ, List.getElem?_drop]
    congr 1
    omega

/-- The table has each key once, with the value that `f` gives it. -/
structure Table (l : List (Option (κ × ν))) (f : κ → Option ν) : Prop where
  once : ∀ (i j : Nat) k v w, l[i]? = some (some (k, v)) → l[j]? = some (some (k, w)) → i = j
  value : ∀ k v, f k = some v ↔ ∃ i : Nat, l[i]? = some (some (k, v))

theorem Table.nil : Table ([] : List (Option (κ × ν))) fun _ => none :=
  ⟨fun i j k v w slot => by simp at slot, fun k v => by simp⟩

variable [DecidableEq κ]

/-- A key that is not in the table is entered in an empty slot or at the end. -/
theorem Table.enter (table : Table l f) (absent : f k = none) (place : j = l.length ∨ l[j]? = some none) :
    Table (put l j (some (k, v))) (Function.update f k (some v)) := by
  have le : j ≤ l.length := by
    rcases place with rfl | empty
    · exact Nat.le_refl _
    · exact Nat.le_of_lt (List.getElem?_eq_some_iff.1 empty).1
  have fresh : ∀ (i : Nat) w, l[i]? ≠ some (some (k, w)) := fun i w slot => by
    have value := (table.value k w).2 ⟨i, slot⟩
    rw [absent] at value
    cases value
  have notHere : ∀ x : κ × ν, l[j]? ≠ some (some x) := fun x slot => by
    rcases place with rfl | empty
    · simp at slot
    · rw [empty] at slot
      cases slot
  constructor
  · intro a b k' v' w' slot slot'
    rw [getElem?_put le] at slot slot'
    split at slot <;> split at slot'
    · omega
    · cases slot
      exact absurd slot' (fresh b w')
    · cases slot'
      exact absurd slot (fresh a v')
    · exact table.once a b k' v' w' slot slot'
  · intro k' v'
    by_cases same : k' = k
    · subst same
      rw [Function.update_self]
      constructor
      · intro value
        cases value
        exact ⟨j, by rw [getElem?_put le, if_pos rfl]⟩
      · rintro ⟨a, slot⟩
        rw [getElem?_put le] at slot
        split at slot
        · cases slot
          rfl
        · exact absurd slot (fresh a v')
    · rw [Function.update_of_ne same, table.value]
      refine exists_congr fun a => ?_
      rw [getElem?_put le]
      split
      · rename_i here
        refine iff_of_false (here ▸ notHere _) fun slot => ?_
        cases slot
        exact same rfl
      · exact Iff.rfl

/-- An entry is removed. -/
theorem Table.remove (table : Table l f) (slot : l[j]? = some (some (k, v))) :
    Table (put l j none) (Function.update f k none) := by
  have le : j ≤ l.length := Nat.le_of_lt (List.getElem?_eq_some_iff.1 slot).1
  have elsewhere : ∀ (i : Nat) x, (put l j none)[i]? = some (some x) ↔ i ≠ j ∧ l[i]? = some (some x) := by
    intro i x
    rw [getElem?_put le]
    split
    · rename_i here
      simp [here]
    · rename_i away
      simp [away]
  constructor
  · intro a b k' v' w' slotA slotB
    exact table.once a b k' v' w' ((elsewhere _ _).1 slotA).2 ((elsewhere _ _).1 slotB).2
  · intro k' v'
    simp only [elsewhere]
    by_cases same : k' = k
    · subst same
      rw [Function.update_self]
      refine iff_of_false (by simp) ?_
      rintro ⟨a, away, slotA⟩
      exact away (table.once a j k' v' v slotA slot)
    · rw [Function.update_of_ne same, table.value]
      refine exists_congr fun a => (and_iff_right_of_imp fun slotA here => ?_).symm
      rw [here, slot] at slotA
      cases slotA
      exact same rfl

end Xv6.Lib.Slots
