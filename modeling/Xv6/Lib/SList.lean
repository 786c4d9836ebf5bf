import Mathlib

/-!
# Singly linked lists in a heap of link fields

A list threaded through one link field `next`, ended by the null pointer (`none`).
`IsSList` says which list the links from a pointer on hold; since the links decide it,
such a list has no repetition. The slot of a link is the head pointer or the link field
of an element, so the walk to the last slot and the store there are one code for the
empty list and for the others.
-/

namespace Xv6.Lib

variable {α : Type*} {next : α → Option α} {head : Option α} {a : α} {l : List α}

/-- Following `next` from `head` up to the null pointer passes exactly the elements of `l`. -/
def IsSList (next : α → Option α) : Option α → List α → Prop
  | head, [] => head = none
  | head, a :: l => head = some a ∧ IsSList next (next a) l

theorem IsSList.head_eq (list : IsSList next head l) : head = l.head? := by
  cases l with
  | nil => exact list
  | cons a l => exact list.1

theorem IsSList.unique {l' : List α} (list : IsSList next head l) (list' : IsSList next head l') : l = l' := by
  induction l generalizing head l' with
  | nil =>
    rw [list.head_eq] at list'
    cases l' with
    | nil => rfl
    | cons a l' => cases list'.1
  | cons a l ih =>
    rw [list.head_eq] at list'
    cases l' with
    | nil => cases list'
    | cons b l' =>
      obtain ⟨same, rest⟩ := list'
      cases same
      rw [ih list.2 rest]

/-- What follows an element is the list of its link. -/
theorem IsSList.after {l1 l2 : List α} (list : IsSList next head (l1 ++ a :: l2)) : IsSList next (next a) l2 := by
  induction l1 generalizing head with
  | nil => exact list.2
  | cons b l1 ih => exact ih list.2

theorem IsSList.nodup (list : IsSList next head l) : l.Nodup := by
  induction l generalizing head with
  | nil => exact List.nodup_nil
  | cons a l ih =>
    refine List.nodup_cons.2 ⟨fun again => ?_, ih list.2⟩
    -- the list after the first `a` and the one after the second would be the same
    obtain ⟨l1, l2, rfl⟩ := List.append_of_mem again
    have twice : IsSList next head ((a :: l1) ++ a :: l2) := list
    have same := list.2.unique twice.after
    have := congrArg List.length same
    simp at this
    omega

/-- Only the links of the elements matter. -/
theorem IsSList.congr {next' : α → Option α} (list : IsSList next head l) (same : ∀ a ∈ l, next' a = next a) :
    IsSList next' head l := by
  induction l generalizing head with
  | nil => exact list
  | cons a l ih =>
    refine ⟨list.1, ?_⟩
    rw [same a (by simp)]
    exact ih list.2 fun b member => same b (by simp [member])

/-- What a slot holds: `none` is the head pointer, `some a` the link field of `a`. -/
def slot (next : α → Option α) (head : Option α) : Option α → Option α
  | none => head
  | some a => next a

/-- `for(pp = &head; *pp; pp = &(*pp)->next)`, for at most `fuel` slots. -/
def lastSlot (next : α → Option α) (head : Option α) : Nat → Option α → Option (Option α)
  | 0, _ => none
  | fuel + 1, pp => match slot next head pp with
    | none => some pp
    | some a => lastSlot next head fuel (some a)

theorem lastSlot_from {fuel : Nat} (pp : Option α) (list : IsSList next (slot next head pp) l) (enough : l.length < fuel) :
    lastSlot next head fuel pp = some (l.getLast?.or pp) := by
  induction l generalizing pp fuel with
  | nil =>
    obtain ⟨fuel, rfl⟩ := Nat.exists_eq_add_one_of_ne_zero (Nat.ne_of_gt enough)
    have empty : slot next head pp = none := list
    simp [lastSlot, empty]
  | cons a l ih =>
    obtain ⟨fuel, rfl⟩ := Nat.exists_eq_add_one_of_ne_zero (Nat.ne_of_gt (Nat.zero_lt_of_lt enough))
    have step : lastSlot next head (fuel + 1) pp = lastSlot next head fuel (some a) := by simp [lastSlot, list.1]
    rw [step, ih (some a) list.2 (by simpa using enough), List.getLast?_cons]
    cases l.getLast? <;> rfl

/-- The walk ends at the link of the last element, or at the head pointer. -/
theorem IsSList.lastSlot {fuel : Nat} (list : IsSList next head l) (enough : l.length < fuel) :
    lastSlot next head fuel none = some l.getLast? := by
  rw [lastSlot_from none list enough]
  simp

variable [DecidableEq α]

/-- `*pp = a`: the links and the head pointer after the store. -/
def storeSlot (next : α → Option α) (head : Option α) (pp : Option α) (a : α) : (α → Option α) × Option α :=
  match pp with
  | none => (next, some a)
  | some b => (Function.update next b (some a), head)

/-- A new element with a null link, stored in the last slot, stands at the end of the list. -/
theorem IsSList.append (list : IsSList next head l) (fresh : a ∉ l) (null : next a = none) :
    IsSList (storeSlot next head l.getLast? a).1 (storeSlot next head l.getLast? a).2 (l ++ [a]) := by
  induction l generalizing head with
  | nil => exact ⟨rfl, null⟩
  | cons b l ih =>
    have nodup := List.nodup_cons.1 list.nodup
    have old := ih list.2 (fun member => fresh (by simp [member]))
    cases last : l.getLast? with
    | none =>
      cases List.getLast?_eq_none_iff.1 last
      have ne : a ≠ b := fun same => fresh (by simp [same])
      exact ⟨list.1, by simp [storeSlot, IsSList, Function.update_of_ne ne, null]⟩
    | some c =>
      have inside : c ∈ l := List.mem_of_getLast? last
      have ne : b ≠ c := fun same => nodup.1 (same ▸ inside)
      rw [last] at old
      rw [List.getLast?_cons, last]
      refine ⟨list.1, ?_⟩
      simp only [storeSlot, Option.getD_some, Function.update_of_ne ne] at old ⊢
      exact old

end Xv6.Lib
