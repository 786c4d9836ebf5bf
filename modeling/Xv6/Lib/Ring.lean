import Mathlib

/-!
# Ring buffers with wrapping counters

A ring of `m` cells with two counters of `n` bits that only grow and wrap around:
cell `c % m` holds the element with number `c`. The size divides `2 ^ n`, so the
numbering of the cells has no seam where the counters wrap, and it is smaller than
`2 ^ n`, so an empty ring and a full one are told apart by the counters.
-/

namespace Xv6.Lib.Ring

variable {α : Type*} {n m : Nat} {data : Nat → α} {r w : BitVec n} {l : List α} {x : α}

/-- The ring with read counter `r` and write counter `w` holds the list `l`, oldest element first. -/
structure Holds (m : Nat) (data : Nat → α) (r w : BitVec n) (l : List α) : Prop where
  count : w = r + BitVec.ofNat n l.length
  fits : l.length ≤ m
  cells : ∀ k (inside : k < l.length), data ((r + BitVec.ofNat n k).toNat % m) = l[k]

theorem Holds.nil (data : Nat → α) (r : BitVec n) : Holds m data r r [] where
  count := by simp
  fits := Nat.zero_le m
  cells k inside := absurd inside (Nat.not_lt_zero k)

/-- The cell of a counter moved on by `k`. -/
theorem cell_add (div : m ∣ 2 ^ n) (k : Nat) : (r + BitVec.ofNat n k).toNat % m = (r.toNat + k) % m := by
  rw [BitVec.toNat_add, BitVec.toNat_ofNat, Nat.add_mod_mod, Nat.mod_mod_of_dvd _ div]

section
variable (holds : Holds m data r w l)
include holds

/-- **The counters tell how many elements there are.** -/
theorem Holds.length_eq (small : m < 2 ^ n) : (w - r).toNat = l.length := by
  have lt : l.length < 2 ^ n := Nat.lt_of_le_of_lt holds.fits small
  rw [holds.count, BitVec.add_comm, BitVec.add_sub_cancel, BitVec.toNat_ofNat, Nat.mod_eq_of_lt lt]

theorem Holds.empty_iff (small : m < 2 ^ n) : r = w ↔ l = [] := by
  rw [← List.length_eq_zero_iff, ← holds.length_eq small]
  constructor
  · rintro rfl
    simp
  · intro zero
    have difference : w - r = 0 := BitVec.eq_of_toNat_eq (by simpa using zero)
    rw [← BitVec.sub_add_cancel w r, difference]
    simp

theorem Holds.full_iff (small : m < 2 ^ n) : w = r + BitVec.ofNat n m ↔ l.length = m := by
  constructor
  · rintro rfl
    rw [← holds.length_eq small, BitVec.add_comm, BitVec.add_sub_cancel, BitVec.toNat_ofNat, Nat.mod_eq_of_lt small]
  · intro full
    rw [holds.count, full]

/-- **Writing a cell appends.** -/
theorem Holds.push (div : m ∣ 2 ^ n) (room : l.length < m) (x : α) :
    Holds m (Function.update data (w.toNat % m) x) r (w + 1#n) (l ++ [x]) where
  count := by
    rw [holds.count, List.length_append, List.length_singleton, BitVec.ofNat_add, BitVec.add_assoc]
  fits := by
    rw [List.length_append, List.length_singleton]
    omega
  cells k inside := by
    have last : w.toNat % m = (r.toNat + l.length) % m := by rw [holds.count, cell_add div]
    rw [last, cell_add div]
    rw [List.length_append, List.length_singleton] at inside
    rcases Nat.lt_or_eq_of_le (Nat.le_of_lt_succ inside) with old | rfl
    · -- an older cell is less than `m` numbers away
      have other : (r.toNat + k) % m ≠ (r.toNat + l.length) % m := by
        intro same
        have := Nat.ModEq.add_left_cancel' r.toNat same
        rw [Nat.ModEq, Nat.mod_eq_of_lt (by omega), Nat.mod_eq_of_lt room] at this
        omega
      rw [Function.update_of_ne other, ← cell_add div, holds.cells k old, List.getElem_append_left old]
    · rw [Function.update_self, List.getElem_append_right (Nat.le_refl _)]
      simp

end

/-- **Reading a cell takes the oldest element.** -/
theorem Holds.pop (holds : Holds m data r w (x :: l)) : data (r.toNat % m) = x ∧ Holds m data (r + 1#n) w l where
  left := by
    have first := holds.cells 0 (Nat.succ_pos _)
    rwa [BitVec.add_zero, List.getElem_cons_zero] at first
  right :=
    { count := by
        rw [holds.count, List.length_cons, BitVec.ofNat_add, BitVec.add_assoc, BitVec.add_comm 1#n]
      fits := by
        have := holds.fits
        rw [List.length_cons] at this
        omega
      cells := fun k inside => by
        have next := holds.cells (k + 1) (Nat.succ_lt_succ inside)
        rwa [BitVec.ofNat_add, BitVec.add_comm (BitVec.ofNat n k), ← BitVec.add_assoc, List.getElem_cons_succ] at next }

/-- **Taking the youngest element back.** -/
theorem Holds.unpush (holds : Holds m data r w (l ++ [x])) : data ((w - 1#n).toNat % m) = x ∧ Holds m data r (w - 1#n) l := by
  have count : w - 1#n = r + BitVec.ofNat n l.length := by
    rw [holds.count, List.length_append, List.length_singleton, BitVec.ofNat_add, ← BitVec.add_assoc,
      BitVec.add_sub_cancel]
  have fits := holds.fits
  rw [List.length_append, List.length_singleton] at fits
  refine ⟨?_, count, by omega, fun k inside => ?_⟩
  · have last := holds.cells l.length (by simp)
    rwa [← count, List.getElem_append_right (Nat.le_refl _), List.getElem_singleton] at last
  · have old := holds.cells k (by rw [List.length_append]; omega)
    rwa [List.getElem_append_left inside] at old

/-- The ring up to the counter of a later element. -/
theorem Holds.front {l1 l2 : List α} (holds : Holds m data r w (l1 ++ l2)) :
    Holds m data r (r + BitVec.ofNat n l1.length) l1 where
  count := rfl
  fits := by
    have := holds.fits
    rw [List.length_append] at this
    omega
  cells k inside := by
    have old := holds.cells k (by rw [List.length_append]; omega)
    rwa [List.getElem_append_left inside] at old

/-- The ring from the counter of a later element on. -/
theorem Holds.suffix {l1 l2 : List α} (holds : Holds m data r w (l1 ++ l2)) :
    Holds m data (r + BitVec.ofNat n l1.length) w l2 := by
  induction l1 generalizing r with
  | nil => simpa using holds
  | cons x l1 ih =>
    have rest := ih holds.pop.2
    rwa [BitVec.add_assoc, BitVec.add_comm 1#n, ← BitVec.ofNat_add] at rest

end Xv6.Lib.Ring
