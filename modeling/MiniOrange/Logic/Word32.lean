import Mathlib

/-!
# Words of 32 bits as numbers

Sums and differences of `uint32_t`. Where nothing is lost they are those of the natural numbers.
-/

namespace MiniOrange

/-- The sum of two words. -/
def add32 (a b : Nat) : Nat := (a + b) % 2 ^ 32

/-- The difference of two words. -/
def sub32 (a b : Nat) : Nat := (a + (2 ^ 32 - b)) % 2 ^ 32

theorem add32_eq {a b : Nat} (h : a + b < 2 ^ 32) : add32 a b = a + b := Nat.mod_eq_of_lt h

theorem sub32_eq {a b : Nat} (h : b ≤ a) (ha : a < 2 ^ 32) : sub32 a b = a - b := by
  unfold sub32
  omega

end MiniOrange
