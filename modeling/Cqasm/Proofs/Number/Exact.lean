import Mathlib.Algebra.Group.Nat.Defs
import Cqasm.Tree.Basic

/-!
# Whole numbers that a double can hold

A whole number below `2 ^ 53` is a double, so rounding leaves it as it is (`nearestWhole_eq_some`).
In the double its leading bit is bit 52 of the significand, and the exponent says how far it was
shifted up to get there.
-/

set_option autoImplicit false

namespace Cqasm

open Binary64

theorem roundHalfEven_one (n : Nat) : roundHalfEven n 1 = n := by
  simp [roundHalfEven, Nat.mod_one]

variable {n : Nat}

/-- The last bit of the significand is 52 places below the leading bit of the number. -/
theorem exponentOf_whole (hn : n ≠ 0) (hlog : n.log2 ≤ 52) :
    exponentOf n 1 = (n.log2 : Int) - 52 := by
  have hle : 2 ^ n.log2 ≤ n := Nat.log2_self_le hn
  have hlow : ¬n < 1 <<< n.log2 := by
    rw [Nat.one_shiftLeft]
    omega
  have hone : Nat.log2 1 = 0 := by decide
  unfold exponentOf minExponent
  simp [hone, hlow]
  omega

theorem significandAt_whole (hlog : n.log2 ≤ 52) :
    significandAt n 1 ((n.log2 : Int) - 52) = n * 2 ^ (52 - n.log2) := by
  unfold significandAt
  split
  · next h =>
    have heq : n.log2 = 52 := by omega
    simp [heq, roundHalfEven_one]
  · next h =>
    have heq : (-((n.log2 : Int) - 52)).toNat = 52 - n.log2 := by omega
    rw [heq, roundHalfEven_one, Nat.shiftLeft_eq]

/-- Shifted up, the number has its leading bit at bit 52. -/
theorem significand_bounds (hn : n ≠ 0) (hlog : n.log2 ≤ 52) :
    exponentUnit ≤ n * 2 ^ (52 - n.log2) ∧ n * 2 ^ (52 - n.log2) < 2 * exponentUnit := by
  have hunit : exponentUnit = 2 ^ n.log2 * 2 ^ (52 - n.log2) := by
    rw [← Nat.pow_add, Nat.add_sub_cancel' hlog]
    rfl
  have hlt : n < 2 * 2 ^ n.log2 := by
    rw [← Nat.pow_succ']
    exact Nat.lt_log2_self
  rw [hunit, ← Nat.mul_assoc]
  exact ⟨Nat.mul_le_mul_right _ (Nat.log2_self_le hn),
    Nat.mul_lt_mul_of_pos_right hlt (Nat.pow_pos (by decide))⟩

theorem fractionBits_whole (hn : n ≠ 0) (hlog : n.log2 ≤ 52) :
    fractionBits n 1 = (n.log2 + 1022) * exponentUnit + n * 2 ^ (52 - n.log2) := by
  have hbounds := significand_bounds hn hlog
  have hunits : ((n.log2 : Int) - 52 - minExponent).toNat = n.log2 + 1022 := by
    unfold minExponent
    omega
  unfold fractionBits
  rw [if_neg hn]
  dsimp only
  rw [exponentOf_whole hn hlog, significandAt_whole hlog, hunits]
  apply Nat.min_eq_left
  unfold exponentUnit infinityBits at *
  omega

/-- A whole number below `2 ^ 53` is the double nearest to it. -/
theorem nearestWhole_eq_some (h : n < 2 ^ 53) : nearestWhole n = some n := by
  by_cases hn : n = 0
  · subst hn
    decide +kernel
  have hlog : n.log2 ≤ 52 := Nat.le_of_lt_succ ((Nat.log2_lt hn).2 h)
  obtain ⟨hle, hlt⟩ := significand_bounds hn hlog
  have hbits := fractionBits_whole hn hlog
  -- From here on the fields of the double are told from its bits alone, which are linear in `s`.
  generalize hs : n * 2 ^ (52 - n.log2) = s at hle hlt hbits
  have hmagnitude : (ofFraction false n 1).magnitudeBits = (n.log2 + 1022) * exponentUnit + s := by
    unfold magnitudeBits ofFraction
    rw [hbits]
    unfold exponentUnit signBit at *
    simp
    omega
  have hnormal : ¬(n.log2 + 1022) * exponentUnit + s < exponentUnit := by omega
  have hsignificand : (ofFraction false n 1).significand = s := by
    unfold significand
    rw [hmagnitude, if_neg hnormal]
    unfold exponentUnit at *
    omega
  have hexponent : (ofFraction false n 1).exponent = (n.log2 : Int) - 52 := by
    unfold exponent
    rw [hmagnitude, if_neg hnormal]
    unfold exponentUnit minExponent at *
    omega
  have hfinite : (ofFraction false n 1).isFinite := by
    unfold isFinite
    rw [hmagnitude]
    unfold exponentUnit infinityBits at *
    apply decide_eq_true
    omega
  have hpositive : (ofFraction false n 1).isNegative = false := by
    unfold isNegative ofFraction
    rw [hbits]
    unfold exponentUnit signBit at *
    simp
    omega
  unfold nearestWhole toNat? magnitude
  rw [hsignificand, hexponent, hfinite, hpositive]
  -- Reading the whole number back undoes the shift.
  by_cases hzero : (0 : Int) ≤ (n.log2 : Int) - 52
  · have heq : n.log2 = 52 := by omega
    have hsn : s = n := by rw [← hs, heq]; exact Nat.mul_one n
    simp [heq, hsn, Nat.mod_one]
  · have hshift : (-((n.log2 : Int) - 52)).toNat = 52 - n.log2 := by omega
    have hpos : 0 < 2 ^ (52 - n.log2) := Nat.pow_pos (by decide)
    simp only [hzero, if_false, hshift, Nat.one_shiftLeft, ← hs]
    rw [Nat.mul_mod_left, Nat.mul_div_cancel _ hpos]
    simp

theorem VersionItem.ofNat_eq_whole (h : n < 2 ^ 53) : VersionItem.ofNat n = .whole n := by
  unfold VersionItem.ofNat
  rw [nearestWhole_eq_some h]

end Cqasm
