import Mathlib

/-!
# Ranges laid end to end

Every element of a list is given a range of integers, each range beginning right after the
one before it. The ranges then cover an interval, every number of it once.
-/

namespace Xv6.Lib

variable {α : Type*} {lo n : α → Int} {s e x : Int} {l : List α} {a b : α}

/-- The ranges of `l`, `n a` numbers from `lo a` on for each `a`, lie end to end from `s + 1` up to `e`. -/
def Tiled (lo n : α → Int) : Int → List α → Int → Prop
  | s, [], e => s = e
  | s, a :: l, e => lo a = s + 1 ∧ 0 < n a ∧ Tiled lo n (s + n a) l e

/-- The number `x` is in the range of `a`. -/
def InRange (lo n : α → Int) (x : Int) (a : α) : Prop := lo a ≤ x ∧ x ≤ lo a + n a - 1

section
variable (tiled : Tiled lo n s l e)
include tiled

theorem Tiled.le : s ≤ e := by
  induction l generalizing s with
  | nil => exact le_of_eq tiled
  | cons a l ih =>
    have := ih tiled.2.2
    have := tiled.2.1
    omega

theorem Tiled.positive (member : a ∈ l) : 0 < n a := by
  induction l generalizing s with
  | nil => cases member
  | cons b l ih =>
    rcases List.mem_cons.1 member with rfl | later
    · exact tiled.2.1
    · exact ih tiled.2.2 later

theorem Tiled.inside (member : a ∈ l) (holds : InRange lo n x a) : s < x ∧ x ≤ e := by
  induction l generalizing s with
  | nil => cases member
  | cons b l ih =>
    obtain ⟨first, some_, rest⟩ := tiled
    obtain ⟨low, high⟩ := holds
    rcases List.mem_cons.1 member with rfl | later
    · have := rest.le
      omega
    · have := ih rest later
      omega

/-- Every number of the interval is in a range. -/
theorem Tiled.exists_range (low : s < x) (high : x ≤ e) : ∃ a ∈ l, InRange lo n x a := by
  induction l generalizing s with
  | nil =>
    have : s = e := tiled
    omega
  | cons b l ih =>
    obtain ⟨first, some_, rest⟩ := tiled
    by_cases here : x ≤ s + n b
    · exact ⟨b, List.mem_cons_self, by omega, by omega⟩
    · obtain ⟨a, member, holds⟩ := ih rest (by omega)
      exact ⟨a, List.mem_cons_of_mem b member, holds⟩

/-- No number is in two ranges. -/
theorem Tiled.unique (first : a ∈ l) (second : b ∈ l) (holds : InRange lo n x a)
    (holds' : InRange lo n x b) : a = b := by
  induction l generalizing s with
  | nil => cases first
  | cons c l ih =>
    obtain ⟨start, some_, rest⟩ := tiled
    obtain ⟨low, high⟩ := id holds
    obtain ⟨low', high'⟩ := id holds'
    rcases List.mem_cons.1 first with rfl | later <;> rcases List.mem_cons.1 second with rfl | later'
    · rfl
    · have := rest.inside later' holds'
      omega
    · have := rest.inside later holds
      omega
    · exact ih rest later later'

end

end Xv6.Lib
