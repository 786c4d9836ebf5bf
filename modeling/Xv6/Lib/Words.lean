import Mathlib

/-!
# Words in a memory of bytes

Little-endian 32-bit words in a memory that is a function from addresses to bytes. A word
depends on its four bytes only, and a store changes no others.
-/

namespace Xv6.Lib

/-- The contents of a byte-addressed memory. -/
abbrev Bytes := Nat → BitVec 8

/-- The word at an address. -/
def word (m : Bytes) (a : Nat) : Nat :=
  (m a).toNat + 2 ^ 8 * (m (a + 1)).toNat + 2 ^ 16 * (m (a + 2)).toNat + 2 ^ 24 * (m (a + 3)).toNat

/-- Store a word. -/
def setWord (m : Bytes) (a v : Nat) : Bytes := fun x =>
  if a ≤ x ∧ x < a + 4 then BitVec.ofNat 8 (v / 2 ^ (8 * (x - a))) else m x

variable {m m' : Bytes} {a b v : Nat}

theorem word_lt (m : Bytes) (a : Nat) : word m a < 2 ^ 32 := by
  have h0 := (m a).isLt
  have h1 := (m (a + 1)).isLt
  have h2 := (m (a + 2)).isLt
  have h3 := (m (a + 3)).isLt
  unfold word
  omega

theorem word_congr (same : ∀ x, a ≤ x → x < a + 4 → m' x = m x) : word m' a = word m a := by
  unfold word
  rw [same a (by omega) (by omega), same (a + 1) (by omega) (by omega), same (a + 2) (by omega) (by omega),
    same (a + 3) (by omega) (by omega)]

theorem setWord_outside {x : Nat} (outside : ¬ (a ≤ x ∧ x < a + 4)) : setWord m a v x = m x := if_neg outside

theorem word_setWord (m : Bytes) (a : Nat) (fits : v < 2 ^ 32) : word (setWord m a v) a = v := by
  have byte (k : Nat) (small : k < 4) : setWord m a v (a + k) = BitVec.ofNat 8 (v / 2 ^ (8 * k)) := by
    rw [setWord, if_pos (by omega), Nat.add_sub_cancel_left]
  have first : setWord m a v a = BitVec.ofNat 8 v := by simpa using byte 0 (by omega)
  unfold word
  rw [first, byte 1 (by omega), byte 2 (by omega), byte 3 (by omega)]
  simp only [BitVec.toNat_ofNat]
  omega

theorem word_setWord_apart (apart : a + 4 ≤ b ∨ b + 4 ≤ a) : word (setWord m a v) b = word m b :=
  word_congr fun _ _ _ => setWord_outside (by omega)

end Xv6.Lib
