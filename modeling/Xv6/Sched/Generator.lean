import Xv6.Sched.Draw

/-!
# The random numbers

`xorshift128` with the arithmetic shifts of `int` is linear over the bits, but not one to one: two words `x` that
differ by a certain negative word give the same number. The sign bit of a new number is always 0, since both shifts to the
right repeat the sign bit of their operand. So the words stay non-negative, and among non-negative words a step
loses nothing; in particular it does not come to 0.
-/

namespace Xv6.Sched

/-- The state that a call of `xorshift128` leaves. -/
def Xorshift.next (g : Xorshift) : Xorshift := (xorshift128 g).2

/-- The state after `n` calls. -/
def Xorshift.after (g : Xorshift) (n : Nat) : Xorshift := Xorshift.next^[n] g

/-- As `int`s, the four words are at least 0. -/
structure Xorshift.NonNeg (g : Xorshift) : Prop where
  x : g.x.msb = false
  y : g.y.msb = false
  z : g.z.msb = false
  w : g.w.msb = false

/-- The state in which every number is 0. -/
def Xorshift.zero : Xorshift := ⟨0, 0, 0, 0⟩

section
variable {g g' : Xorshift} {d t u v : BitVec 32}

/-- The shift to the left loses nothing: three shifts by 11 clear a word. -/
theorem eq_of_xor_shiftLeft (same : d ^^^ d <<< 11 = t) : d = t ^^^ t <<< 11 ^^^ t <<< 22 := by
  have cleared : d <<< 33 = 0#32 := BitVec.shiftLeft_eq_zero (by decide)
  rw [← same]
  simp only [BitVec.shiftLeft_xor_distrib, ← BitVec.shiftLeft_add, Nat.reduceAdd, cleared, BitVec.xor_zero]
  rw [← BitVec.xor_assoc, BitVec.xor_assoc d, BitVec.xor_self, BitVec.xor_zero, BitVec.xor_assoc, BitVec.xor_self,
    BitVec.xor_zero]

/-- The shift to the right loses the words in which all bits are the sign bit. -/
theorem signs_of_eq_sshiftRight (same : d = d.sshiftRight 8) : d = 0#32 ∨ d = BitVec.allOnes 32 := by
  have double (n : Nat) (fixed : d = d.sshiftRight n) : d = d.sshiftRight (n + n) := by
    rw [BitVec.sshiftRight_add, ← fixed, ← fixed]
  have again : d = d.sshiftRight 32 := double 16 (double 8 same)
  cases sign : d.msb with
  | false =>
    left
    rw [again, BitVec.sshiftRight_eq_of_msb_false sign]
    exact BitVec.ushiftRight_eq_zero (by decide)
  | true =>
    right
    rw [again, BitVec.sshiftRight_eq_of_msb_true sign, BitVec.ushiftRight_eq_zero (by decide)]
    rfl

/-- Of the words `x` that give the same number, at most one is non-negative. -/
theorem sum_injective (nonneg : u.msb = false) (nonneg' : v.msb = false)
    (same : (u ^^^ u <<< 11) ^^^ (u ^^^ u <<< 11).sshiftRight 8 = (v ^^^ v <<< 11) ^^^ (v ^^^ v <<< 11).sshiftRight 8) :
    u = v := by
  have sign : (u ^^^ v).msb = false := by rw [BitVec.msb_xor, nonneg, nonneg', Bool.xor_false]
  obtain ⟨t, left⟩ : ∃ t, (u ^^^ v) ^^^ (u ^^^ v) <<< 11 = t := ⟨_, rfl⟩
  have back := eq_of_xor_shiftLeft left
  have fixed : t = t.sshiftRight 8 := by
    rw [← BitVec.xor_eq_zero_iff, ← left]
    simp only [BitVec.shiftLeft_xor_distrib, BitVec.sshiftRight_xor_distrib] at same ⊢
    rw [← BitVec.xor_eq_zero_iff] at same
    rw [← same]
    ac_rfl
  rcases signs_of_eq_sshiftRight fixed with rfl | rfl
  · rw [← BitVec.xor_eq_zero_iff, back]
    rfl
  · rw [back] at sign
    cases sign

/-- A new number is never negative, whatever the words are. -/
theorem xorshift128_msb (g : Xorshift) : (xorshift128 g).1.msb = false := by
  simp [xorshift128, BitVec.msb_sshiftRight]

theorem Xorshift.NonNeg.next (nonneg : g.NonNeg) : g.next.NonNeg := ⟨nonneg.y, nonneg.z, nonneg.w, xorshift128_msb g⟩

theorem next_injective (nonneg : g.NonNeg) (nonneg' : g'.NonNeg) (same : g.next = g'.next) : g = g' := by
  obtain ⟨x, y, z, w⟩ := g
  obtain ⟨x', y', z', w'⟩ := g'
  simp only [Xorshift.next, xorshift128, Xorshift.mk.injEq] at same
  obtain ⟨rfl, rfl, rfl, number⟩ := same
  rw [BitVec.xor_assoc (w ^^^ _), BitVec.xor_assoc (w ^^^ _), BitVec.xor_right_inj] at number
  obtain rfl := sum_injective (u := x) (v := x') nonneg.x nonneg'.x number
  rfl

/-- Both hold of the initial state, and every call keeps them. -/
theorem after_sound (n : Nat) : (Xorshift.initial.after n).NonNeg ∧ Xorshift.initial.after n ≠ .zero := by
  induction n with
  | zero => exact ⟨⟨rfl, rfl, rfl, rfl⟩, by decide⟩
  | succ n ih =>
    rw [Xorshift.after, Function.iterate_succ_apply']
    refine ⟨ih.1.next, fun isZero => ih.2 ?_⟩
    exact next_injective ih.1 ⟨rfl, rfl, rfl, rfl⟩ (isZero.trans rfl)

end

/-- The numbers that `pickProcess` rolls with are never negative, and the generator neither comes to the all zero state nor
to any other fixed point that it did not start in. -/
theorem generator_never_degenerates :
    (∀ n, 0 ≤ (xorshift128 (Xorshift.initial.after n)).1.toInt ∧ (xorshift128 (Xorshift.initial.after n)).1.toInt < 2 ^ 31 ∧
      (∀ totalTickets, 0 < totalTickets → 0 ≤ rolled (Xorshift.initial.after n) totalTickets) ∧
      Xorshift.initial.after (n + 1) ≠ .zero) ∧
    (∀ g g' : Xorshift, g.NonNeg → g'.NonNeg → g.next = g'.next → g = g') ∧
    ∀ g p : Xorshift, g.NonNeg → g.next = p → p.next = p → g = p := by
  refine ⟨fun n => ?_, fun g g' => next_injective, fun g p nonneg step fixed => ?_⟩
  · have positive : 0 ≤ (xorshift128 (Xorshift.initial.after n)).1.toInt := by
      rw [BitVec.toInt_eq_toNat_of_msb (xorshift128_msb _)]
      exact Int.natCast_nonneg _
    exact ⟨positive, BitVec.toInt_lt, fun total _ => Int.tmod_nonneg total positive, (after_sound (n + 1)).2⟩
  · exact next_injective nonneg (step ▸ nonneg.next) (step.trans fixed.symm)

end Xv6.Sched
