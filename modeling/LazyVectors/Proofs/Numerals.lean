import Mathlib.Algebra.Order.Field.Power
import Mathlib.Algebra.Order.Ring.Rat
import Mathlib.Data.List.Induction
import Mathlib.Tactic.FieldSimp
import Mathlib.Tactic.Linarith
import Mathlib.Tactic.NormNum
import Mathlib.Tactic.Positivity
import Mathlib.Tactic.Ring
import LazyVectors.Decimal
set_option autoImplicit false

namespace LazyVectors

namespace Decimal

variable {ds es : List Nat}

theorem value_append (ds es : List Nat) :
    value (ds ++ es) = value ds * placeValue es.length + value es := by
  induction es using List.reverseRecOn with
  | nil => rw [List.append_nil]; exact (Nat.mul_one _).symm
  | append_singleton es e ih =>
    rw [← List.append_assoc, value_append_singleton, value_append_singleton, ih,
      List.length_append, List.length_singleton, placeValue_succ, Nat.mul_add, ← Nat.mul_assoc]
    ring

theorem value_cons (d : Nat) (ds : List Nat) :
    value (d :: ds) = d * placeValue ds.length + value ds := by
  have h := value_append [d] ds
  rwa [List.singleton_append, show value [d] = d from Nat.zero_add d] at h

theorem digits_value (hds : ∀ d ∈ ds, d < 10) (hne : ds ≠ []) (hfirst : ds.head? ≠ some 0) :
    digits (value ds) = ds := by
  induction ds using List.reverseRecOn with
  | nil => exact absurd rfl hne
  | append_singleton ds d ih =>
    have hd : d < 10 := hds d (List.mem_append_right _ (List.mem_singleton_self d))
    rw [value_append_singleton, digits]
    by_cases hnil : ds = []
    · subst hnil
      have hvalue : 10 * value [] + d = d := Nat.zero_add d
      rw [hvalue, if_pos hd, List.nil_append]
    · rw [List.head?_append_of_ne_nil _ hnil] at hfirst
      have hdigits := ih (fun e he => hds e (List.mem_append_left _ he)) hnil hfirst
      have hpos : 0 < value ds := by
        refine Nat.pos_of_ne_zero fun hzero => hfirst ?_
        rw [hzero, digits] at hdigits
        rw [← hdigits]
        rfl
      rw [if_neg (by omega), show (10 * value ds + d) / 10 = value ds by omega,
        show (10 * value ds + d) % 10 = d by omega, hdigits]

theorem head?_digits_ne {n : Nat} (h : 0 < n) : (digits n).head? ≠ some 0 := by
  induction n using Nat.strongRecOn with
  | ind n ih =>
    rw [digits]
    split
    · simpa using h.ne'
    · rw [List.head?_append_of_ne_nil _ (digits_ne_nil _)]
      exact ih (n / 10) (by omega) (by omega)

theorem value_replicate_zero (k : Nat) : value (List.replicate k 0) = 0 := by
  induction k with
  | zero => rfl
  | succ k ih => rw [List.replicate_succ, value_cons, ih, Nat.zero_mul]

theorem replicate_zero_lt (k : Nat) : ∀ d ∈ List.replicate k 0, d < 10 := by
  intro d hd
  rw [List.eq_of_mem_replicate hd]
  decide

theorem text_replicate_zero (k : Nat) : text (List.replicate k 0) = List.replicate k '0' :=
  List.map_replicate

theorem cast_placeValue (k : Nat) : (placeValue k : ℚ) = 10 ^ k := Nat.cast_pow 10 k

def fraction : List Nat → ℚ
  | [] => 0
  | d :: ds => (d + fraction ds) / 10

theorem fraction_eq (ds : List Nat) : fraction ds = value ds / 10 ^ ds.length := by
  induction ds with
  | nil => simp [fraction, value]
  | cons d ds ih =>
    rw [fraction, ih, value_cons, List.length_cons, Nat.cast_add, Nat.cast_mul, cast_placeValue,
      pow_succ]
    field_simp

theorem fraction_bounds (hds : ∀ d ∈ ds, d < 10) : 0 ≤ fraction ds ∧ fraction ds < 1 := by
  induction ds with
  | nil => exact ⟨le_refl _, zero_lt_one⟩
  | cons d ds ih =>
    obtain ⟨hlow, hhigh⟩ := ih fun e he => hds e (List.mem_cons_of_mem _ he)
    have hd : ((d + 1 : Nat) : ℚ) ≤ (10 : Nat) := Nat.cast_le.2 (hds d List.mem_cons_self)
    push_cast at hd
    rw [fraction]
    constructor
    · positivity
    · linarith

theorem value_point (ds es : List Nat) :
    (value ds : ℚ) + fraction es = value (ds ++ es) * 10 ^ (-(es.length : Int)) := by
  rw [fraction_eq, value_append, Nat.cast_add, Nat.cast_mul, cast_placeValue, zpow_neg,
    zpow_natCast]
  field_simp

/-- A whole number and less than one more tell both apart. -/
theorem whole_and_fraction {n m : Nat} {x y : ℚ} (hx : 0 ≤ x ∧ x < 1) (hy : 0 ≤ y ∧ y < 1)
    (h : n + x = m + y) : n = m ∧ x = y := by
  have hle : ∀ {n m : Nat} {x y : ℚ}, 0 ≤ x → y < 1 → n + x = m + y → n ≤ m := by
    intro n m x y hx hy h
    have hlt : (n : ℚ) < (m + 1 : Nat) := by push_cast; linarith
    exact Nat.le_of_lt_succ (Nat.cast_lt.1 hlt)
  obtain rfl := le_antisymm (hle hx.1 hy.2 h) (hle hy.1 hx.2 h.symm)
  exact ⟨rfl, add_left_cancel h⟩

theorem eq_nil_of_fraction_eq_zero (hds : ∀ d ∈ ds, d < 10) (hlast : ds.getLast? ≠ some 0)
    (h : fraction ds = 0) : ds = [] := by
  induction ds with
  | nil => rfl
  | cons d ds ih =>
    have htail : ∀ e ∈ ds, e < 10 := fun e he => hds e (List.mem_cons_of_mem _ he)
    have hlow := (fraction_bounds htail).1
    rw [fraction, div_eq_zero_iff, or_iff_left (by norm_num)] at h
    have hd : (d : ℚ) = 0 := by
      have : (0 : ℚ) ≤ d := Nat.cast_nonneg d
      linarith
    have hzero : fraction ds = 0 := by linarith
    have hnil : ds = [] := by
      refine ih htail (fun heq => hlast ?_) hzero
      rw [List.getLast?_cons, heq]
      rfl
    subst hnil
    exact absurd (by rw [Nat.cast_eq_zero.1 hd]; rfl) hlast

theorem fraction_inj (hds : ∀ d ∈ ds, d < 10) (hes : ∀ e ∈ es, e < 10)
    (hlast : ds.getLast? ≠ some 0) (hlast' : es.getLast? ≠ some 0)
    (h : fraction ds = fraction es) : ds = es := by
  induction ds generalizing es with
  | nil => exact (eq_nil_of_fraction_eq_zero hes hlast' h.symm).symm
  | cons d ds ih =>
    cases es with
    | nil => exact eq_nil_of_fraction_eq_zero hds hlast h
    | cons e es =>
      have htail : ∀ d ∈ ds, d < 10 := fun d hd => hds d (List.mem_cons_of_mem _ hd)
      have htail' : ∀ e ∈ es, e < 10 := fun e he => hes e (List.mem_cons_of_mem _ he)
      obtain ⟨rfl, hrest⟩ := whole_and_fraction (fraction_bounds htail) (fraction_bounds htail')
        ((div_left_inj' (by norm_num)).1 h)
      refine congrArg (d :: ·) (ih htail htail' (fun heq => hlast ?_) (fun heq => hlast' ?_) hrest)
      all_goals
        rw [List.getLast?_cons, heq]
        rfl

end Decimal

open Decimal

/-- A decimal numeral without a sign: a whole number, the digits behind the point, and the exponent
if there is one. Nothing in it is superfluous: the digits behind the point do not end in zero, and
an exponent goes with one digit before the point that is not zero. -/
@[ext]
structure Numeral where
  whole : Nat
  part : List Nat
  exponent : Option Int
  part_lt : ∀ d ∈ part, d < 10
  part_last : part.getLast? ≠ some 0
  lead : exponent.isSome → 0 < whole ∧ whole < 10

namespace Numeral

variable {a b : Numeral}

def exponentDigits (e : Int) : List Nat :=
  (if e.natAbs < 10 then [0] else []) ++ digits e.natAbs

theorem exponentDigits_lt (e : Int) : ∀ d ∈ exponentDigits e, d < 10 := by
  intro d hd
  rcases List.mem_append.1 hd with hd | hd
  · split at hd
    · rw [List.mem_singleton.1 hd]
      decide
    · cases hd
  · exact digits_lt _ d hd

theorem value_exponentDigits (e : Int) : Decimal.value (exponentDigits e) = e.natAbs := by
  rw [exponentDigits, value_append, value_digits]
  split <;> simp [Decimal.value]

def exponentText (e : Int) : List Char :=
  (if e < 0 then '-' else '+') :: Decimal.text (exponentDigits e)

def partText (ds : List Nat) : List Char := if ds = [] then [] else '.' :: Decimal.text ds

def suffixText : Option Int → List Char
  | none => []
  | some e => 'e' :: exponentText e

def text (a : Numeral) : List Char :=
  Decimal.text (digits a.whole) ++ partText a.part ++ suffixText a.exponent

def mantissa (a : Numeral) : ℚ := a.whole + fraction a.part

def value (a : Numeral) : ℚ := a.mantissa * 10 ^ a.exponent.getD 0

theorem value_eq (a : Numeral) : a.value =
    Decimal.value (digits a.whole ++ a.part) * 10 ^ (a.exponent.getD 0 - a.part.length) := by
  have hpoint := value_point (digits a.whole) a.part
  rw [value_digits] at hpoint
  rw [value, mantissa, hpoint, mul_assoc, ← zpow_add₀ (by norm_num), neg_add_eq_sub]

theorem exists_of_digits {ds es : List Nat} (exponent : Option Int)
    (hds : digits (Decimal.value ds) = ds) (hes : ∀ d ∈ es, d < 10) (hlast : es.getLast? ≠ some 0)
    (hlead : exponent.isSome → 0 < Decimal.value ds ∧ Decimal.value ds < 10) :
    ∃ a : Numeral, a.exponent = exponent ∧
      a.text = Decimal.text ds ++ partText es ++ suffixText exponent ∧
      a.value = Decimal.value (ds ++ es) * 10 ^ (exponent.getD 0 - es.length) := by
  refine ⟨⟨Decimal.value ds, es, exponent, hes, hlast, hlead⟩, rfl, ?_, ?_⟩
  · rw [text, hds]
  · rw [value_eq, hds]

theorem eq_of_mantissa (hexponent : a.exponent = b.exponent) (h : a.mantissa = b.mantissa) :
    a = b := by
  obtain ⟨hwhole, hpart⟩ :=
    whole_and_fraction (fraction_bounds a.part_lt) (fraction_bounds b.part_lt) h
  exact Numeral.ext hwhole
    (fraction_inj a.part_lt b.part_lt a.part_last b.part_last hpart) hexponent

theorem mantissa_bounds (h : a.exponent.isSome) : 1 ≤ a.mantissa ∧ a.mantissa < 10 := by
  obtain ⟨hlow, hhigh⟩ := fraction_bounds a.part_lt
  have hlead : ((1 : Nat) : ℚ) ≤ a.whole := Nat.cast_le.2 (a.lead h).1
  have hlead' : ((a.whole + 1 : Nat) : ℚ) ≤ (10 : Nat) := Nat.cast_le.2 (a.lead h).2
  push_cast at hlead hlead'
  rw [mantissa]
  constructor <;> linarith

theorem exponent_unique {x y : ℚ} {e f : Int} (hx : 1 ≤ x ∧ x < 10) (hy : 1 ≤ y ∧ y < 10)
    (h : x * 10 ^ e = y * 10 ^ f) : e = f := by
  have hle : ∀ {x y : ℚ} {e f : Int}, 1 ≤ x → y < 10 → x * 10 ^ e = y * 10 ^ f → e ≤ f := by
    intro x y e f hx hy h
    have he : (0 : ℚ) < 10 ^ e := zpow_pos (by norm_num) e
    have hf : (0 : ℚ) < 10 ^ f := zpow_pos (by norm_num) f
    have hlt : (10 : ℚ) ^ e < 10 ^ (f + 1) := by
      rw [zpow_add_one₀ (by norm_num)]
      nlinarith
    exact Int.lt_add_one_iff.1 ((zpow_lt_zpow_iff_right₀ (by norm_num : (1 : ℚ) < 10)).1 hlt)
  exact le_antisymm (hle hx.1 hy.2 h) (hle hy.1 hx.2 h.symm)

/-- A number has at most one numeral of either kind. -/
theorem eq_of_value (hkind : a.exponent.isSome = b.exponent.isSome) (h : a.value = b.value) :
    a = b := by
  rw [value, value] at h
  cases ha : a.exponent with
  | none =>
    have hb : b.exponent = none := by simpa [ha] using hkind
    rw [ha, hb] at h
    exact eq_of_mantissa (ha.trans hb.symm) (mul_right_cancel₀ (by norm_num) h)
  | some e =>
    obtain ⟨f, hb⟩ : ∃ f, b.exponent = some f := by
      rw [ha] at hkind
      exact Option.isSome_iff_exists.1 hkind.symm
    rw [ha, hb] at h
    obtain rfl := exponent_unique (mantissa_bounds (by rw [ha]; rfl))
      (mantissa_bounds (by rw [hb]; rfl)) h
    exact eq_of_mantissa (ha.trans hb.symm)
      (mul_right_cancel₀ (zpow_pos (by norm_num) _).ne' h)

end Numeral

end LazyVectors
