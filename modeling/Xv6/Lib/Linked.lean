import Mathlib

/-!
# Segments of linked lists

Following a link from `a` through the elements of a list up to `e`. A circular list is a
segment that ends where it begins; it can be read from any of its elements.
-/

namespace Xv6.Lib

variable {α : Type*} {next next' : α → α} {a e x : α} {l r : List α}

/-- Following `next` from `a` passes the elements of `l` and then is at `e`. -/
def Linked (next : α → α) : α → List α → α → Prop
  | a, [], e => a = e
  | a, b :: l, e => a = b ∧ Linked next (next b) l e

theorem linked_cons {b : α} : Linked next a (b :: l) e ↔ a = b ∧ Linked next (next b) l e := Iff.rfl

theorem linked_append : Linked next a (l ++ r) e ↔ ∃ c, Linked next a l c ∧ Linked next c r e := by
  induction l generalizing a with
  | nil => simp [Linked]
  | cons b l ih => simp [linked_cons, ih, and_assoc]

theorem Linked.append {c : α} (left : Linked next a l c) (right : Linked next c r e) : Linked next a (l ++ r) e :=
  linked_append.2 ⟨c, left, right⟩

/-- A segment is split at any of its elements. -/
theorem linked_split : Linked next a (l ++ x :: r) e ↔ Linked next a l x ∧ Linked next (next x) r e := by
  rw [linked_append]
  constructor
  · rintro ⟨c, left, rfl, right⟩
    exact ⟨left, right⟩
  · rintro ⟨left, right⟩
    exact ⟨x, left, rfl, right⟩

/-- Only the links of its own elements matter to a segment. -/
theorem Linked.congr (linked : Linked next a l e) (same : ∀ x ∈ l, next' x = next x) : Linked next' a l e := by
  induction l generalizing a with
  | nil => exact linked
  | cons b l ih =>
    obtain ⟨here, rest⟩ := linked
    refine ⟨here, ?_⟩
    rw [same b List.mem_cons_self]
    exact ih rest fun x member => same x (List.mem_cons_of_mem b member)

/-- A circular list, read from another of its elements. -/
theorem Linked.rotate (circle : Linked next a (l ++ x :: r) a) : Linked next (next x) (r ++ l) x := by
  obtain ⟨before, after⟩ := linked_split.1 circle
  exact after.append before

end Xv6.Lib
