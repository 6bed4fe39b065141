import Mathlib.Algebra.Ring.Nat
import LazyVectors.Subscript
set_option autoImplicit false

namespace LazyVectors

namespace Double

theorem toNat_bits_ofNat {n : Nat} (h : n < 2 ^ 64) : (ofNat n).bits.toNat = n :=
  Nat.mod_eq_of_lt h

variable {x : Double} {e f : Nat}

/-- A number without sign whose fields are `e` and `f`. -/
structure Packed (x : Double) (e f : Nat) : Prop where
  exponentField : x.exponentField = e
  fraction : x.fraction = f
  isNegative : x.isNegative = false

theorem packed_ofNat (he : e < 2048) (hf : f < exponentWeight) :
    Packed (ofNat (e * exponentWeight + f)) e f := by
  unfold exponentWeight at hf
  have hbits : (ofNat (e * exponentWeight + f)).bits.toNat = e * 4503599627370496 + f :=
    toNat_bits_ofNat (by unfold exponentWeight; omega)
  refine ⟨?_, ?_, ?_⟩
  · unfold exponentField exponentWeight at *
    omega
  · unfold fraction exponentWeight at *
    omega
  · unfold isNegative signWeight at *
    simp only [hbits, decide_eq_false_iff_not]
    omega

namespace Packed

theorem isNaN (h : Packed x e f) (he : e < 2047) : x.isNaN = false := by
  have hfield : (x.exponentField == 2047) = false := by simp [h.exponentField]; omega
  rw [Double.isNaN, hfield, Bool.false_and]

theorem isInfinite (h : Packed x e f) (he : e < 2047) : x.isInfinite = false := by
  have hfield : (x.exponentField == 2047) = false := by simp [h.exponentField]; omega
  rw [Double.isInfinite, hfield, Bool.false_and]

theorem truncate (h : Packed x e f) (hpos : 0 < e) (he : e ≤ 1075) :
    x.truncate = ((exponentWeight + f) / 2 ^ (1075 - e) : Nat) := by
  have hscale : x.scale = (e : Int) - 1075 := by
    rw [scale, h.exponentField, if_neg (by omega)]
  have hsignificand : x.significand = exponentWeight + f := by
    rw [significand, h.exponentField, if_neg (by omega), h.fraction]
  have hup : x.scale.toNat = 0 := by omega
  have hdown : (-x.scale).toNat = 1075 - e := by omega
  rw [Double.truncate, h.isNegative, numerator, denominator, hup, hdown, hsignificand,
    Nat.shiftLeft_zero, Nat.one_shiftLeft]
  rfl

end Packed

theorem toNat_bits_neg (x : Double) :
    x.isNegative = true ∧ x.bits.toNat = x.neg.bits.toNat + signWeight ∨
      x.isNegative = false ∧ x.neg.bits.toNat = x.bits.toNat + signWeight := by
  have hlt : x.bits.toNat < 2 ^ 64 := x.bits.toNat_lt
  cases hsign : x.isNegative with
  | true =>
    have hle : signWeight ≤ x.bits.toNat := of_decide_eq_true hsign
    refine .inl ⟨rfl, ?_⟩
    rw [neg, if_pos hsign, toNat_bits_ofNat (by omega), Nat.sub_add_cancel hle]
  | false =>
    have hnot : ¬signWeight ≤ x.bits.toNat := of_decide_eq_false hsign
    refine .inr ⟨rfl, ?_⟩
    unfold signWeight at hnot
    rw [neg, hsign, if_neg Bool.false_ne_true,
      toNat_bits_ofNat (by unfold signWeight; omega)]

theorem exponentField_neg (x : Double) : x.neg.exponentField = x.exponentField := by
  have hbits := toNat_bits_neg x
  unfold exponentField exponentWeight signWeight at *
  omega

theorem fraction_neg (x : Double) : x.neg.fraction = x.fraction := by
  have hbits := toNat_bits_neg x
  unfold fraction exponentWeight signWeight at *
  omega

theorem isNegative_neg (x : Double) : x.neg.isNegative = !x.isNegative := by
  have hlt : x.bits.toNat < 2 ^ 64 := x.bits.toNat_lt
  rcases toNat_bits_neg x with ⟨hsign, hbits⟩ | ⟨hsign, hbits⟩ <;>
    rw [hsign, isNegative] <;> unfold signWeight at * <;> simp <;> omega

theorem isNaN_neg (x : Double) : x.neg.isNaN = x.isNaN := by
  rw [isNaN, isNaN, exponentField_neg, fraction_neg]

theorem isInfinite_neg (x : Double) : x.neg.isInfinite = x.isInfinite := by
  rw [isInfinite, isInfinite, exponentField_neg, fraction_neg]

theorem significand_neg (x : Double) : x.neg.significand = x.significand := by
  rw [significand, significand, exponentField_neg, fraction_neg]

theorem scale_neg (x : Double) : x.neg.scale = x.scale := by
  rw [scale, scale, exponentField_neg]

theorem truncate_neg (x : Double) : x.neg.truncate = -x.truncate := by
  rw [truncate, truncate, isNegative_neg, numerator, numerator, denominator, denominator,
    significand_neg, scale_neg]
  cases x.isNegative <;> simp

theorem log2_le_of_lt {n : Nat} (hpos : 0 < n) (h : n < 2 ^ 53) : n.log2 ≤ 52 := by
  have := (Nat.log2_lt (by omega)).2 h
  omega

theorem significand_bounds {n : Nat} (hpos : 0 < n) (h : n < 2 ^ 53) :
    exponentWeight ≤ n * 2 ^ (52 - n.log2) ∧ n * 2 ^ (52 - n.log2) < 2 * exponentWeight := by
  have hlog := log2_le_of_lt hpos h
  have hlow := Nat.mul_le_mul_right (2 ^ (52 - n.log2)) (Nat.log2_self_le (by omega : n ≠ 0))
  have hhigh := Nat.mul_lt_mul_of_pos_right (Nat.lt_log2_self (n := n))
    (Nat.two_pow_pos (52 - n.log2))
  rw [← Nat.pow_add] at hlow hhigh
  rw [show n.log2 + (52 - n.log2) = 52 by omega] at hlow
  rw [show n.log2 + 1 + (52 - n.log2) = 53 by omega] at hhigh
  exact ⟨hlow, hhigh⟩

theorem ratioLog2_one {n : Nat} (hpos : 0 < n) : ratioLog2 n 1 = n.log2 := by
  have hle := Nat.log2_self_le (by omega : n ≠ 0)
  have hone : Nat.log2 1 = 0 := by decide
  unfold ratioLog2
  simp [hone, Nat.one_shiftLeft, hle]

theorem roundQuotient_one (n : Nat) : roundQuotient n 1 = n := by
  simp [roundQuotient, Nat.mod_one]

theorem ofInt_eq {n : Nat} (hpos : 0 < n) (h : n < 2 ^ 53) : ofInt n =
    ofNat ((n.log2 + 1023) * exponentWeight + (n * 2 ^ (52 - n.log2) - exponentWeight)) := by
  have hlog := log2_le_of_lt hpos h
  obtain ⟨hlow, hhigh⟩ := significand_bounds hpos h
  have hscale : max (-1074) (ratioLog2 n 1 - 52) = (n.log2 : Int) - 52 := by
    rw [ratioLog2_one hpos]
    omega
  have hup : ((n.log2 : Int) - 52).toNat = 0 := by omega
  have hdown : (-((n.log2 : Int) - 52)).toNat = 52 - n.log2 := by omega
  have hexponent : ((n.log2 : Int) - 52 + 1074).toNat = n.log2 + 1022 := by omega
  have hsign : decide ((n : Int) < 0) = false := by simp
  rw [ofInt, hsign, Int.natAbs_natCast, ofRatio, if_neg (by omega)]
  simp only [hscale, hup, hdown, hexponent, Nat.shiftLeft_zero, roundQuotient_one,
    Bool.false_eq_true, if_false]
  refine congrArg ofNat ?_
  rw [Nat.shiftLeft_eq]
  unfold exponentWeight at *
  omega

theorem packed_ofInt {n : Nat} (hpos : 0 < n) (h : n < 2 ^ 53) :
    Packed (ofInt n) (n.log2 + 1023) (n * 2 ^ (52 - n.log2) - exponentWeight) := by
  have hlog := log2_le_of_lt hpos h
  obtain ⟨hlow, hhigh⟩ := significand_bounds hpos h
  rw [ofInt_eq hpos h]
  exact packed_ofNat (by omega) (by omega)

theorem truncate_ofInt {n : Nat} (hpos : 0 < n) (h : n < 2 ^ 53) : (ofInt n).truncate = n := by
  have hlog := log2_le_of_lt hpos h
  obtain ⟨hlow, -⟩ := significand_bounds hpos h
  rw [(packed_ofInt hpos h).truncate (by omega) (by omega), Nat.add_sub_cancel' hlow,
    show 1075 - (n.log2 + 1023) = 52 - n.log2 by omega, Nat.mul_div_cancel _ (Nat.two_pow_pos _)]

theorem ofRatio_negative {n : Nat} (hpos : 0 < n) (d : Nat) :
    ofRatio true n d = (ofRatio false n d).neg := by
  rw [ofRatio, ofRatio, if_neg (by omega), if_neg (by omega)]
  simp only [if_true, Bool.false_eq_true, if_false]
  generalize roundQuotient _ _ = m
  generalize (max (-1074) (ratioLog2 n d - 52) + 1074).toNat = e
  have hle : min (e * exponentWeight + m) (2047 * exponentWeight) ≤ 2047 * exponentWeight :=
    Nat.min_le_right _ _
  generalize min (e * exponentWeight + m) (2047 * exponentWeight) = size at hle
  unfold exponentWeight at hle
  have hbits : (ofNat size).bits.toNat = size := toNat_bits_ofNat (by omega)
  have hsign : (ofNat size).isNegative = false := by
    rw [isNegative, hbits]
    unfold signWeight
    simp only [decide_eq_false_iff_not]
    omega
  rw [neg, hsign, hbits, Nat.add_comm]
  rfl

theorem ofInt_neg {n : Nat} (hpos : 0 < n) : ofInt (-n) = (ofInt n).neg := by
  have hnegative : decide (-(n : Int) < 0) = true := by simp; omega
  have hpositive : decide ((n : Int) < 0) = false := by simp
  rw [ofInt, ofInt, hnegative, hpositive, Int.natAbs_neg, Int.natAbs_natCast,
    ofRatio_negative hpos]

/-- A whole number that the significand holds is finite, and cutting it off leaves it alone. -/
theorem whole_ofInt {i : Int} (h : i.natAbs < 2 ^ 53) :
    (ofInt i).isNaN = false ∧ (ofInt i).isInfinite = false ∧ (ofInt i).truncate = i := by
  have hnat : ∀ {n : Nat}, n < 2 ^ 53 →
      (ofInt n).isNaN = false ∧ (ofInt n).isInfinite = false ∧ (ofInt n).truncate = n := by
    intro n hn
    rcases Nat.eq_zero_or_pos n with rfl | hpos
    · decide
    · have hlog := log2_le_of_lt hpos hn
      have hpacked := packed_ofInt hpos hn
      exact ⟨hpacked.isNaN (by omega), hpacked.isInfinite (by omega), truncate_ofInt hpos hn⟩
  rcases i.natAbs_eq with hi | hi
  · rw [hi]
    exact hnat h
  · rcases Nat.eq_zero_or_pos i.natAbs with hzero | hpos
    · rw [Int.natAbs_eq_zero.1 hzero]
      decide
    · rw [hi, ofInt_neg hpos, isNaN_neg, isInfinite_neg, truncate_neg]
      obtain ⟨hnan, hinfinite, htruncate⟩ := hnat h
      exact ⟨hnan, hinfinite, by rw [htruncate]⟩

theorem whole_toInt (i : Int32) : (ofInt i.toInt).isNaN = false ∧
    (ofInt i.toInt).isInfinite = false ∧ (ofInt i.toInt).truncate = i.toInt := by
  have hlow := i.minValue_le_toInt
  have hhigh := i.toInt_lt
  have hmin : Int32.minValue.toInt = -2147483648 := rfl
  exact whole_ofInt (by omega)

end Double

theorem Position.ofDouble_ofInt {i : Int} (h : i.natAbs < 2 ^ 53) :
    ofDouble (.ofInt i) = some i := by
  obtain ⟨hnan, hinfinite, htruncate⟩ := Double.whole_ofInt h
  have hmin : Int64.minValue.toInt = -9223372036854775808 := rfl
  have hmax : Int64.maxValue.toInt = 9223372036854775807 := rfl
  rw [ofDouble, hnan, Double.truncateWithin, hinfinite, htruncate, hmin, hmax]
  simp only [Bool.false_eq_true, if_false, Option.some.injEq]
  omega

theorem Position.ofDouble_na : ofDouble .na = none := by decide

end LazyVectors
