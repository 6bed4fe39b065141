import Mathlib.Algebra.Order.Field.Power
import Mathlib.Algebra.Order.Ring.Rat
import Mathlib.Tactic.NormNum
import Mathlib.Tactic.Positivity
import LazyVectors.Proofs.WholeDoubles
set_option autoImplicit false

namespace LazyVectors.Double

variable {x : Double}

def size (x : Double) : ℚ := x.significand * 2 ^ x.scale

def toRat (x : Double) : ℚ := if x.isNegative then -x.size else x.size

theorem size_eq (x : Double) : x.size = x.numerator / x.denominator := by
  have hscale : x.scale = x.scale.toNat - (-x.scale).toNat := by omega
  rw [size, numerator, denominator, Nat.shiftLeft_eq, Nat.one_shiftLeft]
  conv => lhs; rw [hscale, zpow_sub₀ (by norm_num), zpow_natCast, zpow_natCast]
  push_cast
  rw [mul_div_assoc]

theorem significand_pos (hzero : x.isZero = false) : 0 < x.significand := by
  have hbits : x.bits.toNat % signWeight ≠ 0 := by simpa [isZero] using hzero
  unfold significand exponentField fraction
  unfold signWeight at hbits
  unfold exponentWeight
  split <;> omega

theorem size_of_isZero (hzero : x.isZero = true) : x.size = 0 := by
  have hbits : x.bits.toNat % signWeight = 0 := by simpa [isZero] using hzero
  have hsignificand : x.significand = 0 := by
    unfold significand exponentField fraction
    unfold signWeight at hbits
    unfold exponentWeight
    split <;> omega
  rw [size, hsignificand, Nat.cast_zero, zero_mul]

theorem numerator_pos (hzero : x.isZero = false) : 0 < x.numerator := by
  rw [numerator, Nat.shiftLeft_eq]
  exact Nat.mul_pos (significand_pos hzero) (Nat.two_pow_pos _)

theorem size_pos (hzero : x.isZero = false) : 0 < x.size :=
  mul_pos (Nat.cast_pos.2 (significand_pos hzero)) (zpow_pos (by norm_num) _)

theorem toRat_neg_iff (hzero : x.isZero = false) : x.toRat < 0 ↔ x.isNegative = true := by
  have hpos := size_pos hzero
  unfold toRat
  split
  · rename_i hnegative
    exact iff_of_true (neg_neg_of_pos hpos) hnegative
  · rename_i hnegative
    exact iff_of_false hpos.le.not_gt hnegative

theorem significand_lt (x : Double) : x.significand < 2 ^ 53 := by
  unfold significand fraction exponentWeight
  split <;> omega

theorem exponentField_lt (hnan : x.isNaN = false) (hinfinite : x.isInfinite = false) :
    x.exponentField < 2047 := by
  have hle : x.exponentField < 2048 := Nat.mod_lt _ (by decide)
  have hne : x.exponentField ≠ 2047 := by
    intro heq
    rw [isNaN, heq] at hnan
    rw [isInfinite, heq] at hinfinite
    simp_all
  omega

theorem size_bounds (hnan : x.isNaN = false) (hinfinite : x.isInfinite = false)
    (hzero : x.isZero = false) : (2 : ℚ) ^ (-1074 : Int) ≤ x.size ∧ x.size < 2 ^ (1024 : Int) := by
  have hfield := exponentField_lt hnan hinfinite
  have hone : ((1 : Nat) : ℚ) ≤ x.significand := Nat.cast_le.2 (significand_pos hzero)
  have hsignificand : (x.significand : ℚ) < (2 ^ 53 : Nat) := Nat.cast_lt.2 x.significand_lt
  have hscale : -1074 ≤ x.scale ∧ x.scale ≤ 971 := by
    unfold scale
    split <;> omega
  have hlow : (2 : ℚ) ^ (-1074 : Int) ≤ 2 ^ x.scale := zpow_le_zpow_right₀ (by norm_num) hscale.1
  have hhigh : (2 : ℚ) ^ x.scale ≤ 2 ^ (971 : Int) := zpow_le_zpow_right₀ (by norm_num) hscale.2
  have hpos : (0 : ℚ) < 2 ^ x.scale := zpow_pos (by norm_num) _
  rw [Nat.cast_one] at hone
  rw [size]
  constructor
  · exact hlow.trans (le_mul_of_one_le_left hpos.le hone)
  · calc (x.significand : ℚ) * 2 ^ x.scale
      _ < (2 ^ 53 : Nat) * 2 ^ x.scale := mul_lt_mul_of_pos_right hsignificand hpos
      _ ≤ (2 ^ 53 : Nat) * 2 ^ (971 : Int) := mul_le_mul_of_nonneg_left hhigh (Nat.cast_nonneg _)
      _ = 2 ^ (1024 : Int) := by
        rw [Nat.cast_pow, Nat.cast_ofNat, ← zpow_natCast, ← zpow_add₀ (by norm_num)]
        congr 1

theorem size_neg (x : Double) : x.neg.size = x.size := by
  rw [size, size, scale_neg, significand_neg]

/-- A whole number that the significand holds is what it stands for. -/
theorem size_ofInt {i : Int} (hne : i ≠ 0) (h : i.natAbs < 2 ^ 53) : (ofInt i).size = i.natAbs := by
  have hnat : ∀ {n : Nat}, 0 < n → n < 2 ^ 53 → (ofInt n).size = n := by
    intro n hpos hn
    have hlog := log2_le_of_lt hpos hn
    obtain ⟨hlow, -⟩ := significand_bounds hpos hn
    have hpacked := packed_ofInt hpos hn
    have hscale : (ofInt n).scale = (n.log2 : Int) - 52 := by
      rw [scale, hpacked.exponentField, if_neg (by omega)]
      omega
    have hexp : -((n.log2 : Int) - 52) = (52 - n.log2 : Nat) := by omega
    rw [size, significand, hscale, hpacked.exponentField, if_neg (by omega), hpacked.fraction,
      Nat.add_sub_cancel' hlow, Nat.cast_mul, Nat.cast_pow, Nat.cast_ofNat, mul_assoc,
      ← zpow_natCast, ← hexp, ← zpow_add₀ (by norm_num), neg_add_cancel, zpow_zero, mul_one]
  have hpos : 0 < i.natAbs := Int.natAbs_pos.2 hne
  rcases i.natAbs_eq with hi | hi
  · conv => lhs; rw [hi]
    exact hnat hpos h
  · conv => lhs; rw [hi, ofInt_neg hpos, size_neg]
    exact hnat hpos h

theorem toRat_ofInt {i : Int} (h : i.natAbs < 2 ^ 53) : (ofInt i).toRat = i := by
  rcases eq_or_ne i 0 with rfl | hne
  · have hsize : (ofInt 0).size = 0 := size_of_isZero (by decide)
    rw [toRat, hsize, neg_zero, ite_self, Int.cast_zero]
  have hpos : 0 < i.natAbs := Int.natAbs_pos.2 hne
  have hsign := (packed_ofInt hpos h).isNegative
  rcases i.natAbs_eq with hi | hi
  · have hnonneg : (ofInt i).isNegative = false := by
      rw [hi]
      exact hsign
    rw [toRat, size_ofInt hne h, hnonneg, if_neg Bool.false_ne_true, ← Int.cast_natCast, ← hi]
  · have hnegative : (ofInt i).isNegative = true := by
      rw [hi, ofInt_neg hpos, isNegative_neg, hsign]
      rfl
    rw [toRat, size_ofInt hne h, hnegative, if_pos rfl, ← Int.cast_natCast, ← Int.cast_neg, ← hi]

end LazyVectors.Double
