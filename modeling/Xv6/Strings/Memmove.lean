import Mathlib

/-!
# The two `memmove`s

The kernel's `memmove` (`string.c`) copies downwards when the destination begins inside of the source; the one
of the user library (`ulib.c`) always copies upwards, and takes the length as an `int`. Upwards, a byte that was
overwritten before it is read comes from `dst - src` bytes further down, so what is copied repeats the beginning of the source.
-/

namespace Xv6.Strings

abbrev Word := BitVec 32

abbrev Mem := Word → BitVec 8

/-- `while(n-- > 0) *d++ = *s++;` -/
def copyUp : Nat → Mem → Word → Word → Mem
  | 0, m, _, _ => m
  | n + 1, m, d, s => copyUp n (Function.update m d (m s)) (d + 1) (s + 1)

/-- `while(n-- > 0) *--d = *--s;` -/
def copyDown : Nat → Mem → Word → Word → Mem
  | 0, m, _, _ => m
  | n + 1, m, d, s => copyDown n (Function.update m (d - 1) (m (s - 1))) (d - 1) (s - 1)

/-- `memmove` of `string.c`. -/
def Kernel.memmove (m : Mem) (dst src n : Word) : Mem :=
  if src < dst ∧ src + n > dst then copyDown n.toNat m (dst + n) (src + n) else copyUp n.toNat m dst src

/-- `memmove` of `ulib.c`; `n` is an `int` there. -/
def Ulib.memmove (m : Mem) (dst src n : Word) : Mem := copyUp n.toInt.toNat m dst src

/-- The address `i` bytes after `a`. -/
def nth (a : Word) (i : Nat) : Word := a + BitVec.ofNat 32 i

/-- The bytes of the destination are those that the source had, and all others are as before. -/
structure Moves (m : Mem) (dst src n : Word) (m' : Mem) : Prop where
  copied : ∀ i < n.toNat, m' (nth dst i) = m (nth src i)
  others : ∀ a, (∀ i < n.toNat, a ≠ nth dst i) → m' a = m a

/-- The `n` bytes at `a` are inside of the address space. -/
def Inside (a n : Word) : Prop := a.toNat + n.toNat ≤ 2 ^ 32

instance (a n : Word) : Decidable (Inside a n) := inferInstanceAs (Decidable (_ ≤ _))

/-- When the user library's `memmove` is correct: if the destination begins inside of the source, the source
repeats what is before that; and a length that is negative as an `int`, with which nothing is copied, is for ranges
with the same bytes. -/
def Harmless (m : Mem) (dst src n : Word) : Prop :=
  if n.toInt < 0 then ∀ i < n.toNat, m (nth dst i) = m (nth src i)
  else src < dst → dst.toNat < src.toNat + n.toNat → ∀ i < n.toNat, m (nth src (i % (dst.toNat - src.toNat))) = m (nth src i)

section
variable {m : Mem} {dst src n d s a : Word} {k i j : Nat}

theorem nth_succ (a : Word) (i : Nat) : nth (a + 1) i = nth a (i + 1) := by
  rw [nth, nth, BitVec.add_assoc, Nat.add_comm, BitVec.ofNat_add]
  rfl

theorem nth_toNat (a : Word) (i : Nat) : (nth a i).toNat = (a.toNat + i) % 2 ^ 32 := by
  rw [nth, BitVec.toNat_add, BitVec.toNat_ofNat]
  omega

theorem nth_eq_iff : nth a i = nth s j ↔ (a.toNat + i) % 2 ^ 32 = (s.toNat + j) % 2 ^ 32 := by
  rw [← BitVec.toNat_inj, nth_toNat, nth_toNat]

/-- Upwards, the last byte is copied last. -/
theorem copyUp_succ (k : Nat) (m : Mem) (d s : Word) :
    copyUp (k + 1) m d s = Function.update (copyUp k m d s) (nth d k) (copyUp k m d s (nth s k)) := by
  induction k generalizing m d s with
  | zero => simp [copyUp, nth]
  | succ k ih =>
    rw [copyUp, ih, nth_succ, nth_succ]
    rfl

theorem copyUp_others (outside : ∀ i < k, a ≠ nth d i) : copyUp k m d s a = m a := by
  induction k with
  | zero => rfl
  | succ k ih => rw [copyUp_succ, Function.update_of_ne (outside k (by omega)), ih fun i lt => outside i (by omega)]

/-- The bytes copied upwards repeat the first `d - s` bytes. -/
theorem copyUp_copied (le : k ≤ 2 ^ 32) (lt : i < k) : copyUp k m d s (nth d i) = m (nth s (i % (d - s).toNat)) := by
  induction k generalizing i with
  | zero => omega
  | succ k ih =>
    rw [copyUp_succ]
    rcases Nat.lt_succ_iff_lt_or_eq.1 lt with earlier | rfl
    · rw [Function.update_of_ne (by rw [Ne, nth_eq_iff]; omega), ih (by omega) earlier]
    · rw [Function.update_self]
      have gap : (d - s).toNat = (2 ^ 32 - s.toNat + d.toNat) % 2 ^ 32 := BitVec.toNat_sub ..
      have small := d.isLt
      have small' := s.isLt
      by_cases behind : 0 < (d - s).toNat ∧ (d - s).toNat ≤ i
      · -- this byte of the source has been overwritten, by the one `d - s` before it
        have here : nth s i = nth d (i - (d - s).toNat) := by
          rw [nth_eq_iff]
          omega
        rw [here, ih (by omega) (by omega), Nat.mod_eq_sub_mod behind.2]
      · rw [copyUp_others fun j before => by rw [Ne, nth_eq_iff]; omega]
        rcases Nat.eq_zero_or_pos (d - s).toNat with zero | positive
        · rw [zero, Nat.mod_zero]
        · rw [Nat.mod_eq_of_lt (by omega)]

/-- Downwards, nothing is overwritten before it is read. -/
theorem copyDown_spec (above : s.toNat < d.toNat) (le : d.toNat + k ≤ 2 ^ 32) :
    (∀ i < k, copyDown k m (nth d k) (nth s k) (nth d i) = m (nth s i)) ∧
      ∀ a, (∀ i < k, a ≠ nth d i) → copyDown k m (nth d k) (nth s k) a = m a := by
  induction k generalizing m with
  | zero => exact ⟨fun i lt => by omega, fun a _ => rfl⟩
  | succ k ih =>
    have back (a : Word) : nth a (k + 1) - 1 = nth a k := by
      rw [← nth_succ, nth, nth, BitVec.add_assoc, BitVec.add_comm 1, ← BitVec.add_assoc, BitVec.add_sub_cancel]
    obtain ⟨copied, others⟩ := ih (m := Function.update m (nth d k) (m (nth s k))) (by omega)
    rw [copyDown, back, back]
    refine ⟨fun i lt => ?_, fun a outside => ?_⟩
    · rcases Nat.lt_succ_iff_lt_or_eq.1 lt with earlier | rfl
      · rw [copied i earlier, Function.update_of_ne (by rw [Ne, nth_eq_iff]; omega)]
      · rw [others _ fun j before => by rw [Ne, nth_eq_iff]; omega, Function.update_self]
    · rw [others a fun i lt => outside i (by omega), Function.update_of_ne (outside k (by omega))]

/-- An upward copy is right if and only if the source repeats its first `dst - src` bytes. -/
theorem copyUp_moves_iff : Moves m dst src n (copyUp n.toNat m dst src) ↔
    ∀ i < n.toNat, m (nth src (i % (dst - src).toNat)) = m (nth src i) := by
  have le : n.toNat ≤ 2 ^ 32 := n.isLt.le
  constructor
  · intro moves i lt
    rw [← moves.copied i lt, copyUp_copied le lt]
  · intro repeats
    exact ⟨fun i lt => by rw [copyUp_copied le lt, repeats i lt], fun a outside => copyUp_others outside⟩

/-- If the destination does not begin inside of the source, the upward copy reads each byte before it is overwritten. -/
theorem copyUp_moves (inside : Inside src n) (apart : ¬ (src < dst ∧ dst.toNat < src.toNat + n.toNat)) :
    Moves m dst src n (copyUp n.toNat m dst src) := by
  rw [copyUp_moves_iff]
  intro i lt
  have gap : (dst - src).toNat = (2 ^ 32 - src.toNat + dst.toNat) % 2 ^ 32 := BitVec.toNat_sub ..
  have small := dst.isLt
  unfold Inside at inside
  rw [BitVec.lt_def] at apart
  rcases Nat.eq_zero_or_pos (dst - src).toNat with zero | positive
  · rw [zero, Nat.mod_zero]
  · rw [Nat.mod_eq_of_lt (by omega)]

theorem kernel_memmove_moves (inside : Inside src n) (inside' : Inside dst n) :
    Moves m dst src n (Kernel.memmove m dst src n) := by
  have none : src < dst ∧ src + n > dst ↔ src < dst ∧ dst.toNat < src.toNat + n.toNat := by
    unfold Inside at inside inside'
    rw [BitVec.lt_def, gt_iff_lt, BitVec.lt_def, BitVec.toNat_add]
    omega
  rw [Kernel.memmove]
  split_ifs with overlap
  · have whole (a : Word) : a + n = nth a n.toNat := by rw [nth, BitVec.ofNat_toNat, BitVec.setWidth_eq]
    obtain ⟨copied, others⟩ := copyDown_spec (m := m) (k := n.toNat) (BitVec.lt_def.1 overlap.1) inside'
    rw [whole, whole]
    exact ⟨copied, others⟩
  · exact copyUp_moves inside fun h => overlap (none.2 h)

theorem ulib_memmove_moves_iff (inside : Inside src n) :
    Moves m dst src n (Ulib.memmove m dst src n) ↔ Harmless m dst src n := by
  rw [Ulib.memmove, Harmless]
  split_ifs with negative
  · rw [Int.toNat_of_nonpos (by omega)]
    exact ⟨fun moves i lt => moves.copied i lt, fun same => ⟨same, fun a _ => rfl⟩⟩
  · have length : n.toInt.toNat = n.toNat := by
      rw [BitVec.toInt_eq_toNat_of_msb (BitVec.msb_eq_false_iff_two_mul_lt.2 ?_), Int.toNat_natCast]
      have := BitVec.toInt_eq_toNat_cond n
      split_ifs at this <;> omega
    rw [length]
    by_cases overlap : src < dst ∧ dst.toNat < src.toNat + n.toNat
    · have gap : (dst - src).toNat = dst.toNat - src.toNat := BitVec.toNat_sub_of_le (BitVec.le_of_lt overlap.1)
      rw [copyUp_moves_iff, gap]
      exact ⟨fun h _ _ => h, fun h => h overlap.1 overlap.2⟩
    · exact iff_of_true (copyUp_moves inside overlap) fun below begins => absurd ⟨below, begins⟩ overlap

end

/-- The kernel's `memmove` is correct for all ranges, the user library's for those that its upward copy does not spoil. -/
theorem memmoves_correct_iff (m : Mem) (dst src n : Word) (inside : Inside src n) (inside' : Inside dst n) :
    Moves m dst src n (Kernel.memmove m dst src n) ∧ Moves m dst src n (Ulib.memmove m dst src n) ↔
      Harmless m dst src n :=
  (and_iff_right (kernel_memmove_moves inside inside')).trans (ulib_memmove_moves_iff inside)

/-- A move of two bytes to the address after them. -/
def shifted : Mem := fun a => if a = 0 then 1 else if a = 1 then 2 else 0

/-- Towards the lower address both versions are right. -/
theorem memmoves_correct_iff_backwards : Inside 1 2 ∧ Inside 0 2 ∧
    Moves shifted 0 1 2 (Kernel.memmove shifted 0 1 2) ∧ Moves shifted 0 1 2 (Ulib.memmove shifted 0 1 2) := by
  refine ⟨by decide, by decide, (memmoves_correct_iff shifted 0 1 2 (by decide) (by decide)).2 ?_⟩
  intro below
  exact absurd below (by decide)

/-- Two bytes are moved by one: the user library copies the first of them twice. -/
theorem ulib_memmove_spoils : Kernel.memmove shifted 1 0 2 1 = 1 ∧ Kernel.memmove shifted 1 0 2 2 = 2 ∧
    Ulib.memmove shifted 1 0 2 1 = 1 ∧ Ulib.memmove shifted 1 0 2 2 = 1 ∧
    ¬ Moves shifted 1 0 2 (Ulib.memmove shifted 1 0 2) := by
  refine ⟨by decide, by decide, by decide, by decide, fun moves => ?_⟩
  exact absurd (moves.copied 1 (by decide)) (by decide)

end Xv6.Strings
