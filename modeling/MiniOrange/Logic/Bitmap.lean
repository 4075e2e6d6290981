import Mathlib

/-!
# Bits in an array of bytes

Bit `i` is bit `i % 8` of byte `i / 8`, and is tested, set and cleared with a mask. A write of one bit changes this bit
and no other (`Bitmap.get_set`), and an array is given by its bits (`Bitmap.ext`).
-/

namespace MiniOrange

/-- An array of bytes. -/
abbrev Bitmap := Nat → BitVec 8

namespace Bitmap

/-- The byte with this one bit. -/
def mask (i : Nat) : BitVec 8 := 1#8 <<< (i % 8)

/-- Test a bit. -/
def get (m : Bitmap) (i : Nat) : Bool := m (i / 8) &&& mask i != 0#8

/-- Set or clear a bit. -/
def set (m : Bitmap) (i : Nat) (value : Bool) : Bitmap :=
  Function.update m (i / 8) (if value then m (i / 8) ||| mask i else m (i / 8) &&& ~~~mask i)

theorem mask_eq (i : Nat) : mask i = BitVec.twoPow 8 (i % 8) := (BitVec.twoPow_eq 8 (i % 8)).symm

theorem getLsbD_mask (i k : Nat) : (mask i).getLsbD k = decide (i % 8 = k) := by
  have hlt : i % 8 < 8 := Nat.mod_lt _ (by decide)
  rw [mask_eq, BitVec.getLsbD_twoPow, decide_eq_true hlt, Bool.true_and]

theorem get_eq (m : Bitmap) (i : Nat) : m.get i = (m (i / 8)).getLsbD (i % 8) := by
  have hlt : i % 8 < 8 := Nat.mod_lt _ (by decide)
  unfold get
  rw [mask_eq, BitVec.and_twoPow]
  split
  · next h =>
    rw [h, bne_iff_ne]
    intro hzero
    have hbit := congrArg (fun x => x.getLsbD (i % 8)) hzero
    simp [hlt] at hbit
  · next h => simp [h]

/-- A write changes one bit. -/
theorem get_set (m : Bitmap) (i j : Nat) (value : Bool) : (m.set i value).get j = if j = i then value else m.get j := by
  rw [get_eq, get_eq]
  unfold set
  by_cases hbyte : j / 8 = i / 8
  · rw [hbyte, Function.update_self]
    have hsame : i % 8 = j % 8 ↔ j = i := by omega
    have hlt : j % 8 < 8 := Nat.mod_lt _ (by decide)
    cases value with
    | true =>
      rw [if_pos rfl, BitVec.getLsbD_or, getLsbD_mask]
      simp only [hsame]
      split
      · next h => simp [h]
      · next h => simp [h]
    | false =>
      rw [if_neg Bool.false_ne_true, BitVec.getLsbD_and, BitVec.getLsbD_not, getLsbD_mask]
      simp only [hsame]
      split
      · next h => simp [h]
      · next h => simp [h, hlt]
  · rw [Function.update_of_ne hbyte, if_neg fun h => hbyte (congrArg (· / 8) h)]

/-- An array is given by its bits. -/
theorem ext {m m' : Bitmap} (h : ∀ i, m.get i = m'.get i) : m = m' := by
  funext k
  refine BitVec.eq_of_getLsbD_eq fun i hi => ?_
  have hbit := h (8 * k + i)
  rwa [get_eq, get_eq, show (8 * k + i) / 8 = k by omega, show (8 * k + i) % 8 = i by omega] at hbit

theorem get_replicate_true (i : Nat) : get (fun _ => 0xFF#8) i = true := by
  rw [get_eq]
  have hlt : i % 8 < 8 := Nat.mod_lt _ (by decide)
  generalize i % 8 = k at hlt
  revert hlt k
  decide

theorem get_replicate_false (i : Nat) : get (fun _ => 0#8) i = false := by
  rw [get_eq, BitVec.getLsbD_zero]

end Bitmap

end MiniOrange
