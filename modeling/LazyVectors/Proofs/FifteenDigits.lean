import Mathlib.Algebra.Order.Field.Power
import Mathlib.Algebra.Order.Ring.Rat
import Mathlib.Algebra.Ring.Parity
import Mathlib.Tactic.FieldSimp
import Mathlib.Tactic.Linarith
import Mathlib.Tactic.NormNum
import Mathlib.Tactic.Positivity
import LazyVectors.Double.Text
import LazyVectors.Proofs.NumberTexts
set_option autoImplicit false

namespace LazyVectors

namespace Double

variable {n d : Nat}

theorem roundQuotient_near (hd : 0 < d) :
    |(n : ℚ) / d - roundQuotient n d| ≤ 1 / 2 ∧
      (|(n : ℚ) / d - roundQuotient n d| = 1 / 2 → Even (roundQuotient n d)) := by
  have hd' : (0 : ℚ) < d := Nat.cast_pos.2 hd
  -- what decides is the remainder as a fraction of the divisor
  have hsplit : (n : ℚ) / d = (n / d : Nat) + ((n % d : Nat) : ℚ) / d := by
    have hn : ((d * (n / d) + n % d : Nat) : ℚ) = n := congrArg _ (Nat.div_add_mod n d)
    push_cast at hn
    field_simp
    linarith
  have hlow : (0 : ℚ) ≤ ((n % d : Nat) : ℚ) / d := by positivity
  have hhigh : ((n % d : Nat) : ℚ) / d < 1 := by
    rw [div_lt_one hd']
    exact_mod_cast Nat.mod_lt n hd
  have hless : 2 * (n % d) < d ↔ ((n % d : Nat) : ℚ) / d < 1 / 2 := by
    rw [div_lt_div_iff₀ hd' (by norm_num), mul_comm, one_mul]
    exact_mod_cast Iff.rfl
  have hmore : d < 2 * (n % d) ↔ 1 / 2 < ((n % d : Nat) : ℚ) / d := by
    rw [div_lt_div_iff₀ (by norm_num) hd', mul_comm _ (2 : ℚ), one_mul]
    exact_mod_cast Iff.rfl
  unfold roundQuotient
  rw [hsplit]
  dsimp only
  rw [if_congr hless rfl rfl, if_congr hmore rfl rfl]
  generalize ((n % d : Nat) : ℚ) / d = t at *
  split_ifs with h1 h2 h3
  · rw [add_sub_cancel_left, abs_of_nonneg hlow]
    exact ⟨h1.le, fun heq => absurd heq h1.ne⟩
  · push_cast
    rw [add_sub_add_left_eq_sub, abs_of_neg (by linarith)]
    exact ⟨by linarith, fun heq => absurd heq (by linarith)⟩
  · rw [add_sub_cancel_left, abs_of_nonneg hlow]
    exact ⟨by linarith, fun _ => Nat.even_iff.2 h3⟩
  · push_cast
    rw [add_sub_add_left_eq_sub, abs_of_neg (by linarith)]
    exact ⟨by linarith, fun _ => Nat.even_iff.2 (by omega)⟩

end Double

namespace Scientific

variable {x : ℚ} {n d m m' : Nat} {e e' : Int}

def IsFifteen (m : Nat) : Prop := 10 ^ 14 ≤ m ∧ m < 10 ^ 15

/-- The number `d₁.d₂d₃… · 10 ^ e` with fifteen digits, which are those of `m`. -/
def fifteen (m : Nat) (e : Int) : ℚ := m * 10 ^ (e - 14)

/-- The number of fifteen digits next to `x`; of two that are equally near the even one. -/
structure Nearest (x : ℚ) (m : Nat) (e : Int) : Prop where
  isFifteen : IsFifteen m
  near : ∀ m' e', IsFifteen m' → |x - fifteen m e| ≤ |x - fifteen m' e'|
  even : ∀ m' e', IsFifteen m' → fifteen m' e' ≠ fifteen m e →
    |x - fifteen m' e'| = |x - fifteen m e| → Even m

theorem ten_zpow_pos (e : Int) : (0 : ℚ) < 10 ^ e := zpow_pos (by norm_num) e

theorem fifteen_bounds (hm : IsFifteen m) (e : Int) :
    (10 : ℚ) ^ e ≤ fifteen m e ∧ fifteen m e < 10 ^ (e + 1) := by
  have hpos := ten_zpow_pos (e - 14)
  have hlow : ((10 ^ 14 : Nat) : ℚ) ≤ m := Nat.cast_le.2 hm.1
  have hhigh : (m : ℚ) < (10 ^ 15 : Nat) := Nat.cast_lt.2 hm.2
  have he : (10 : ℚ) ^ e = (10 ^ 14 : Nat) * 10 ^ (e - 14) := by
    rw [Nat.cast_pow, Nat.cast_ofNat, ← zpow_natCast, ← zpow_add₀ (by norm_num)]
    congr 1
    omega
  have he1 : (10 : ℚ) ^ (e + 1) = (10 ^ 15 : Nat) * 10 ^ (e - 14) := by
    rw [Nat.cast_pow, Nat.cast_ofNat, ← zpow_natCast, ← zpow_add₀ (by norm_num)]
    congr 1
    omega
  rw [fifteen, he, he1]
  exact ⟨mul_le_mul_of_nonneg_right hlow hpos.le, mul_lt_mul_of_pos_right hhigh hpos⟩

theorem fifteen_inj (hm : IsFifteen m) (hm' : IsFifteen m') (h : fifteen m e = fifteen m' e') :
    m = m' ∧ e = e' := by
  have hle : ∀ {m m' : Nat} {e e' : Int}, IsFifteen m → IsFifteen m' →
      fifteen m e = fifteen m' e' → e ≤ e' := by
    intro m m' e e' hm hm' h
    have hlt : (10 : ℚ) ^ e < 10 ^ (e' + 1) :=
      (fifteen_bounds hm e).1.trans_lt (h ▸ (fifteen_bounds hm' e').2)
    have := (zpow_lt_zpow_iff_right₀ (by norm_num : (1 : ℚ) < 10)).1 hlt
    omega
  obtain rfl := le_antisymm (hle hm hm' h) (hle hm' hm h.symm)
  have hcast := mul_right_cancel₀ (ten_zpow_pos (e - 14)).ne' h
  exact ⟨Nat.cast_injective hcast, rfl⟩

theorem ratioLog10_bounds_of_le (hd : 0 < d) (hle : d ≤ n) :
    (10 : ℚ) ^ ratioLog10 n d ≤ n / d ∧ (n : ℚ) / d < 10 ^ (ratioLog10 n d + 1) := by
  have hd' : (0 : ℚ) < d := Nat.cast_pos.2 hd
  obtain ⟨l, hl, hlow, hhigh⟩ := Decimal.digits_bounds (Nat.div_pos hle hd)
  have hk : ratioLog10 n d = l := by
    rw [ratioLog10, if_pos hle, hl]
    omega
  have hk1 : (l : Int) + 1 = (l + 1 : Nat) := by omega
  have hbelow : Decimal.placeValue l * d ≤ n :=
    (Nat.mul_le_mul_right d hlow).trans (Nat.div_mul_le_self n d)
  have habove : n < Decimal.placeValue (l + 1) * d := (Nat.div_lt_iff_lt_mul hd).1 hhigh
  rw [hk, hk1, zpow_natCast, zpow_natCast, le_div_iff₀ hd', div_lt_iff₀ hd']
  exact ⟨by exact_mod_cast hbelow, by exact_mod_cast habove⟩

/-- The reciprocal of a ratio of less than one is more than some whole number and at most the next
one; the digits of the lower one say where the first digit of the ratio is. -/
theorem ratioLog10_bounds_of_lt (hn : 0 < n) (hlt : n < d) :
    (10 : ℚ) ^ ratioLog10 n d ≤ n / d ∧ (n : ℚ) / d < 10 ^ (ratioLog10 n d + 1) := by
  have hn' : (0 : ℚ) < n := Nat.cast_pos.2 hn
  have hd' : (0 : ℚ) < d := Nat.cast_pos.2 (hn.trans hlt)
  obtain ⟨c, hc⟩ : ∃ c, (d + n - 1) / n = c + 1 :=
    Nat.exists_eq_succ_of_ne_zero (Nat.div_pos (by omega) hn).ne'
  have hdiv := Nat.div_add_mod (d + n - 1) n
  have hmod := Nat.mod_lt (d + n - 1) hn
  rw [hc, Nat.mul_add_one] at hdiv
  have hbelow : n * c < d := by omega
  have habove : d ≤ n * (c + 1) := by rw [Nat.mul_add_one]; omega
  have hpos : 0 < c := Nat.pos_of_ne_zero fun hzero => by
    rw [hzero] at habove
    omega
  obtain ⟨l, hl, hlow, hhigh⟩ := Decimal.digits_bounds hpos
  have hk : ratioLog10 n d = -((l + 1 : Nat) : Int) := by
    rw [ratioLog10, if_neg (Nat.not_le.2 hlt), hc, Nat.add_sub_cancel, hl]
  have hk1 : -((l + 1 : Nat) : Int) + 1 = -(l : Int) := by omega
  have hleast : d ≤ Decimal.placeValue (l + 1) * n := by
    rw [mul_comm]
    exact habove.trans (Nat.mul_le_mul_left n hhigh)
  have hmost : Decimal.placeValue l * n < d := by
    rw [mul_comm]
    exact (Nat.mul_le_mul_left n hlow).trans_lt hbelow
  rw [hk, hk1, zpow_neg, zpow_neg, zpow_natCast, zpow_natCast,
    inv_le_comm₀ (by positivity) (by positivity), inv_div, div_le_iff₀ hn',
    lt_inv_comm₀ (by positivity) (by positivity), inv_div, lt_div_iff₀ hn']
  exact ⟨by exact_mod_cast hleast, by exact_mod_cast hmost⟩

theorem ratioLog10_bounds (hn : 0 < n) (hd : 0 < d) :
    (10 : ℚ) ^ ratioLog10 n d ≤ n / d ∧ (n : ℚ) / d < 10 ^ (ratioLog10 n d + 1) := by
  rcases Nat.lt_or_ge n d with hlt | hle
  · exact ratioLog10_bounds_of_lt hn hlt
  · exact ratioLog10_bounds_of_le hd hle

theorem fifteen_scaled (hm : IsFifteen m) (e k : Int) :
    (∃ j : Nat, fifteen m e * 10 ^ (14 - k) = j) ∨ fifteen m e * 10 ^ (14 - k) < 10 ^ 14 := by
  rcases le_or_gt k e with hle | hlt
  · refine .inl ⟨m * 10 ^ (e - k).toNat, ?_⟩
    have hk : ((e - k).toNat : Int) = e - 14 + (14 - k) := by omega
    rw [fifteen, mul_assoc, ← zpow_add₀ (by norm_num), ← hk, zpow_natCast]
    push_cast
    rfl
  · have hle : (10 : ℚ) ^ (e + 1) ≤ 10 ^ k := zpow_le_zpow_right₀ (by norm_num) (by omega)
    have hone : (10 : ℚ) ^ k * 10 ^ (14 - k) = 10 ^ 14 := by
      rw [← zpow_add₀ (by norm_num), add_sub_cancel]
      rfl
    refine .inr ?_
    rw [← hone]
    exact mul_lt_mul_of_pos_right ((fifteen_bounds hm e).2.trans_le hle) (ten_zpow_pos _)

/-- A whole number at most a half away, and even if it is a half, is the nearest one to a number
with fifteen digits before the point, also among those that have fewer. -/
theorem nearest_whole {y z : ℚ} {j : Nat} (hy : 10 ^ 14 ≤ y) (hnear : |y - j| ≤ 1 / 2)
    (heven : |y - j| = 1 / 2 → Even j) (hz : (∃ i : Nat, z = i) ∨ z < 10 ^ 14) :
    |y - j| ≤ |y - z| ∧ (z ≠ j → |y - z| = |y - j| → Even j) := by
  -- any other whole number is at least a half away
  have hwhole : ∀ i : Nat, i ≠ j → 1 / 2 ≤ |y - i| := by
    intro i hij
    have hone : (1 : ℚ) ≤ |(j : ℚ) - i| := by
      have := Int.one_le_abs (sub_ne_zero.2 fun heq : (j : Int) = i => hij (by omega))
      exact_mod_cast this
    have htriangle := abs_sub_le (j : ℚ) y i
    rw [abs_sub_comm (j : ℚ) y] at htriangle
    linarith
  rcases hz with ⟨i, rfl⟩ | hz
  · by_cases hij : i = j
    · subst i
      exact ⟨le_refl _, fun hne => absurd rfl hne⟩
    · have hhalf := hwhole i hij
      refine ⟨hnear.trans hhalf, fun _ heq => heven ?_⟩
      linarith
  · -- the least number of fifteen digits is nearer than all that have fewer
    have hfar : y - 10 ^ 14 < |y - z| := by
      rw [abs_of_pos (by linarith)]
      linarith
    have hleast : |y - j| ≤ y - 10 ^ 14 := by
      by_cases hj : 10 ^ 14 = j
      · have hcast : (j : ℚ) = 10 ^ 14 := by exact_mod_cast hj.symm
        rw [hcast, abs_of_nonneg (by linarith)]
      · have hhalf := hwhole (10 ^ 14) hj
        push_cast at hhalf
        rw [abs_of_nonneg (by linarith)] at hhalf
        exact hnear.trans hhalf
    exact ⟨(hleast.trans_lt hfar).le, fun _ heq => absurd heq (hleast.trans_lt hfar).ne'⟩

theorem nearest_of_scaled {y : ℚ} {j : Nat} (k : Int) (hy : 10 ^ 14 ≤ y) (hnear : |y - j| ≤ 1 / 2)
    (heven : |y - j| = 1 / 2 → Even j) (hm : IsFifteen m)
    (hj : fifteen m e * 10 ^ (14 - k) = j) (hparity : Even j → Even m) :
    Nearest (y * 10 ^ (k - 14)) m e := by
  have hunit := ten_zpow_pos (k - 14)
  have hone : (10 : ℚ) ^ (14 - k) * 10 ^ (k - 14) = 1 := by
    rw [← zpow_add₀ (by norm_num), sub_add_sub_cancel, sub_self, zpow_zero]
  have hdist : ∀ z, |y * 10 ^ (k - 14) - z| = |y - z * 10 ^ (14 - k)| * 10 ^ (k - 14) := by
    intro z
    rw [← abs_of_pos hunit, ← abs_mul, sub_mul, abs_of_pos hunit, mul_assoc z, hone, mul_one]
  refine ⟨hm, fun m' e' hm' => ?_, fun m' e' hm' hne heq => ?_⟩
  · rw [hdist, hdist, hj]
    exact mul_le_mul_of_nonneg_right
      (nearest_whole hy hnear heven (fifteen_scaled hm' e' k)).1 hunit.le
  · rw [hdist, hdist, hj] at heq
    refine hparity ((nearest_whole hy hnear heven (fifteen_scaled hm' e' k)).2 (fun hsame => hne ?_)
      (mul_right_cancel₀ hunit.ne' heq))
    exact mul_right_cancel₀ (ten_zpow_pos (14 - k)).ne' (hsame.trans hj.symm)

theorem scaled_bounds {k : Int} (hlow : (10 : ℚ) ^ k ≤ x) (hhigh : x < 10 ^ (k + 1)) :
    (10 : ℚ) ^ 14 ≤ x * 10 ^ (14 - k) ∧ x * 10 ^ (14 - k) < 10 ^ 15 := by
  have hpos := ten_zpow_pos (14 - k)
  constructor
  · refine le_trans (le_of_eq ?_) (mul_le_mul_of_nonneg_right hlow hpos.le)
    rw [← zpow_add₀ (by norm_num), add_sub_cancel]
    rfl
  · refine lt_of_lt_of_eq (mul_lt_mul_of_pos_right hhigh hpos) ?_
    rw [← zpow_add₀ (by norm_num), show k + 1 + (14 - k) = 15 by omega]
    rfl

/-- Rounding to a whole number can give one digit more, but only with zeros behind the first. -/
theorem rounded_bounds {y : ℚ} {j : Nat} (hy : 10 ^ 14 ≤ y ∧ y < 10 ^ 15)
    (hnear : |y - j| ≤ 1 / 2) : 10 ^ 14 ≤ j ∧ j ≤ 10 ^ 15 := by
  obtain ⟨hleft, hright⟩ := abs_le.1 hnear
  have hlow : ((10 ^ 14 : Nat) : ℚ) < (j + 1 : Nat) := by
    rw [Nat.cast_pow, Nat.cast_ofNat, Nat.cast_succ]
    linarith [hy.1]
  have hhigh : (j : ℚ) < (10 ^ 15 + 1 : Nat) := by
    rw [Nat.cast_succ, Nat.cast_pow, Nat.cast_ofNat]
    linarith [hy.2]
  exact ⟨Nat.le_of_lt_succ (Nat.cast_lt.1 hlow), Nat.le_of_lt_succ (Nat.cast_lt.1 hhigh)⟩

theorem nearest_roundRatio (hn : 0 < n) (hd : 0 < d) :
    Nearest ((n : ℚ) / d) (roundRatio n d).1 (roundRatio n d).2 := by
  obtain ⟨hlow, hhigh⟩ := ratioLog10_bounds hn hd
  have hplace : ∀ k, Decimal.placeValue k = 10 ^ k := fun _ => rfl
  unfold roundRatio
  simp only [hplace]
  generalize ratioLog10 n d = k at hlow hhigh ⊢
  -- the quotient that is rounded is the ratio in units of its fifteenth digit
  have hunits : ((n * 10 ^ (14 - k).toNat : Nat) : ℚ) / (d * 10 ^ (-(14 - k)).toNat : Nat) =
      n / d * 10 ^ (14 - k) := by
    have hk : (14 - k : Int) = (14 - k).toNat - (-(14 - k)).toNat := by omega
    conv => rhs; rw [hk, zpow_sub₀ (by norm_num), zpow_natCast, zpow_natCast]
    push_cast
    rw [div_mul_div_comm]
  have hback : (n : ℚ) / d = n / d * 10 ^ (14 - k) * 10 ^ (k - 14) := by
    rw [mul_assoc, ← zpow_add₀ (by norm_num), sub_add_sub_cancel, sub_self, zpow_zero, mul_one]
  have hy := scaled_bounds hlow hhigh
  obtain ⟨hnear, heven⟩ := Double.roundQuotient_near (n := n * 10 ^ (14 - k).toNat)
    (Nat.mul_pos hd (Nat.pow_pos (n := (-(14 - k)).toNat) (by decide : 0 < 10)))
  rw [hunits] at hnear heven
  rw [hback]
  generalize Double.roundQuotient (n * 10 ^ (14 - k).toNat) (d * 10 ^ (-(14 - k)).toNat) = j
    at hnear heven ⊢
  obtain ⟨hjlow, hjhigh⟩ := rounded_bounds hy hnear
  -- a quotient that was rounded up to sixteen digits is one and zeros
  split
  · rename_i hten
    have hfifteen : IsFifteen (10 ^ 14) := ⟨le_refl _, by decide⟩
    have heven' : Even (10 ^ 14) := by decide
    refine nearest_of_scaled k hy.1 hnear heven hfifteen ?_ fun _ => heven'
    have hexp : k + 1 - 14 + (14 - k) = 1 := by omega
    rw [fifteen, mul_assoc, ← zpow_add₀ (by norm_num), hexp, hten]
    norm_num
  · rename_i hten
    refine nearest_of_scaled k hy.1 hnear heven ⟨hjlow, lt_of_le_of_ne hjhigh hten⟩ ?_ id
    rw [fifteen, mul_assoc, ← zpow_add₀ (by norm_num), sub_add_sub_cancel, sub_self, zpow_zero,
      mul_one]

theorem roundRatio_exponent (n d : Nat) :
    (roundRatio n d).2 = ratioLog10 n d ∨ (roundRatio n d).2 = ratioLog10 n d + 1 := by
  unfold roundRatio
  dsimp only
  split
  · exact .inr rfl
  · exact .inl rfl

theorem fifteen_succ_le (hm : IsFifteen m) (hm' : IsFifteen m')
    (hlt : fifteen m e < fifteen m' e') : (m + 1 : Nat) * 10 ^ (e - 14) ≤ fifteen m' e' := by
  have hpos := ten_zpow_pos (e - 14)
  have hee : e ≤ e' := by
    have hbetween : (10 : ℚ) ^ e < 10 ^ (e' + 1) :=
      ((fifteen_bounds hm e).1.trans_lt hlt).trans (fifteen_bounds hm' e').2
    have := (zpow_lt_zpow_iff_right₀ (by norm_num : (1 : ℚ) < 10)).1 hbetween
    omega
  have hunits : fifteen m' e' = (m' * 10 ^ (e' - e).toNat : Nat) * 10 ^ (e - 14) := by
    have he : (e' - 14 : Int) = (e' - e).toNat + (e - 14) := by omega
    rw [fifteen, he, zpow_add₀ (by norm_num), zpow_natCast, ← mul_assoc]
    push_cast
    rfl
  rw [hunits, fifteen] at hlt
  rw [hunits]
  have hm := Nat.cast_lt.1 (lt_of_mul_lt_mul_right hlt hpos.le)
  exact mul_le_mul_of_nonneg_right (Nat.cast_le.2 hm) hpos.le

/-- Two different ones would be equally near, so both even, but neighbours are not. -/
theorem Nearest.not_lt (h : Nearest x m e) (h' : Nearest x m' e') :
    ¬fifteen m e < fifteen m' e' := by
  intro hlt
  -- both are equally near, so both are even, and the number behind the lower one is odd
  have hsame : |x - fifteen m e| = |x - fifteen m' e'| :=
    le_antisymm (h.near m' e' h'.isFifteen) (h'.near m e h.isFifteen)
  have heven : Even m := h.even m' e' h'.isFifteen hlt.ne' hsame.symm
  have heven' : Even m' := h'.even m e h.isFifteen hlt.ne hsame
  have hnext : IsFifteen (m + 1) := by
    refine ⟨h.isFifteen.1.trans (Nat.le_succ m), ?_⟩
    have hlast := h.isFifteen.2
    rw [Nat.even_iff] at heven
    omega
  have hle := fifteen_succ_le h.isFifteen h'.isFifteen hlt
  change fifteen (m + 1) e ≤ fifteen m' e' at hle
  have hgrow : fifteen m e < fifteen (m + 1) e :=
    mul_lt_mul_of_pos_right (Nat.cast_lt.2 (Nat.lt_succ_self m)) (ten_zpow_pos _)
  rcases hle.eq_or_lt with heq | hbetween
  · obtain ⟨rfl, -⟩ := fifteen_inj hnext h'.isFifteen heq
    rw [Nat.even_iff] at heven heven'
    omega
  · -- the next one is strictly between both, so it is nearer
    have hnear := h.near (m + 1) e hnext
    have hnear' := h'.near (m + 1) e hnext
    rcases le_total x (fifteen (m + 1) e) with hx | hx
    · rw [abs_of_nonpos (by linarith : x - fifteen (m + 1) e ≤ 0),
        abs_of_nonpos (by linarith : x - fifteen m' e' ≤ 0)] at hnear'
      linarith
    · rw [abs_of_nonneg (by linarith : 0 ≤ x - fifteen (m + 1) e),
        abs_of_nonneg (by linarith : 0 ≤ x - fifteen m e)] at hnear
      linarith

theorem Nearest.unique (h : Nearest x m e) (h' : Nearest x m' e') : m = m' ∧ e = e' :=
  fifteen_inj h.isFifteen h'.isFifteen
    (le_antisymm (le_of_not_gt (h'.not_lt h)) (le_of_not_gt (h.not_lt h')))

theorem nearest_self (hm : IsFifteen m) (e : Int) : Nearest (fifteen m e) m e := by
  refine ⟨hm, fun m' e' _ => ?_, fun m' e' _ hne heq => absurd ?_ hne⟩
  · rw [sub_self, abs_zero]
    exact abs_nonneg _
  · rw [sub_self, abs_zero, abs_eq_zero, sub_eq_zero] at heq
    exact heq.symm

end Scientific

end LazyVectors
