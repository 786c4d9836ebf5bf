import Mathlib

/-!
# Counting the entries of a table

`occurrences h a` is the number of entries of the finite table `h` that hold `a`. An
update of one entry moves the count of the old value down and that of the new one up.
-/

namespace Xv6.Lib

variable {ι α : Type*} [Fintype ι] [DecidableEq α] {h h' : ι → α} {i : ι} {a v : α}

def occurrences (h : ι → α) (a : α) : Nat := ∑ j, if h j = a then 1 else 0

theorem occurrences_update [DecidableEq ι] (h : ι → α) (i : ι) (v a : α) :
    occurrences (Function.update h i v) a + (if h i = a then 1 else 0) =
      occurrences h a + (if v = a then 1 else 0) := by
  have split_ (g : ι → α) : occurrences g a = (if g i = a then 1 else 0) +
      ∑ j ∈ Finset.univ.erase i, if g j = a then 1 else 0 :=
    (Finset.add_sum_erase _ _ (Finset.mem_univ i)).symm
  have rest : ∑ j ∈ Finset.univ.erase i, (if Function.update h i v j = a then 1 else 0) =
      ∑ j ∈ Finset.univ.erase i, if h j = a then 1 else 0 := by
    refine Finset.sum_congr rfl fun j member => ?_
    rw [Function.update_of_ne (Finset.ne_of_mem_erase member)]
  rw [split_ (Function.update h i v), split_ h, rest, Function.update_self]
  omega

theorem occurrences_pos (here : h i = a) : 0 < occurrences h a := by
  refine Finset.sum_pos' (fun _ _ => Nat.zero_le _) ⟨i, Finset.mem_univ _, ?_⟩
  simp [here]

theorem occurrences_eq_zero_iff : occurrences h a = 0 ↔ ∀ i, h i ≠ a := by
  unfold occurrences
  simp

end Xv6.Lib
