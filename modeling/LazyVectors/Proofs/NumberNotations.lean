import Mathlib.Data.List.DropRight
import LazyVectors.Proofs.DoubleSizes
import LazyVectors.Proofs.FifteenDigits
import LazyVectors.Proofs.Numerals
set_option autoImplicit false

namespace LazyVectors

namespace Scientific

open Decimal (value value_append value_replicate_zero text_append text_replicate_zero)

variable {s : Scientific} {m : Nat}

/-- The digits start and end with another one than zero. -/
structure Normal (s : Scientific) : Prop where
  digits_lt : ∀ d ∈ s.digits, d < 10
  ne_nil : s.digits ≠ []
  first : s.digits.head? ≠ some 0
  last : s.digits.getLast? ≠ some 0

def size (s : Scientific) : ℚ := value s.digits * 10 ^ (s.exponent + 1 - s.digits.length)

theorem exists_dropTrailingZeros (ds : List Nat) :
    ∃ k, ds = dropTrailingZeros ds ++ List.replicate k 0 := by
  induction ds using List.reverseRecOn with
  | nil => exact ⟨0, rfl⟩
  | append_singleton ds d ih =>
    change ∃ k, ds ++ [d] = (ds ++ [d]).rdropWhile (· == 0) ++ List.replicate k 0
    rw [List.rdropWhile_concat]
    split
    · rename_i hd
      obtain ⟨k, hk⟩ := ih
      refine ⟨k + 1, ?_⟩
      rw [List.replicate_succ', ← List.append_assoc, beq_iff_eq.1 hd]
      exact congrArg (· ++ [0]) hk
    · exact ⟨0, (List.append_nil _).symm⟩

theorem getLast?_dropTrailingZeros (ds : List Nat) : (dropTrailingZeros ds).getLast? ≠ some 0 := by
  change (ds.rdropWhile (· == 0)).getLast? ≠ some 0
  intro h
  have hne : ds.rdropWhile (· == 0) ≠ [] := by
    intro hnil
    rw [hnil] at h
    cases h
  have hlast := List.rdropWhile_last_not (· == 0) ds hne
  rw [List.getLast?_eq_some_getLast hne, Option.some.injEq] at h
  exact hlast (beq_iff_eq.2 h)

theorem IsFifteen.trimmed (hm : IsFifteen m) (e : Int) :
    Normal ⟨dropTrailingZeros (Decimal.digits m), e⟩ ∧
      size ⟨dropTrailingZeros (Decimal.digits m), e⟩ = fifteen m e := by
  obtain ⟨k, hk⟩ := exists_dropTrailingZeros (Decimal.digits m)
  have hpos : 0 < m := (by decide : 0 < 10 ^ 14).trans_le hm.1
  have hfirst := Decimal.head?_digits_ne hpos
  have hlength := Decimal.length_digits_of_bounds hm.1 hm.2
  have hvalue := Decimal.value_digits m
  have hlt := Decimal.digits_lt m
  have hlast := getLast?_dropTrailingZeros (Decimal.digits m)
  generalize dropTrailingZeros (Decimal.digits m) = ds at hk hlast ⊢
  rw [hk] at hfirst hlength hvalue hlt
  have hne : ds ≠ [] := by
    rintro rfl
    rw [List.nil_append, value_replicate_zero] at hvalue
    omega
  rw [List.head?_append_of_ne_nil _ hne] at hfirst
  rw [List.length_append, List.length_replicate] at hlength
  rw [value_append, value_replicate_zero, Nat.add_zero, List.length_replicate] at hvalue
  refine ⟨⟨fun d hd => hlt d (List.mem_append_left _ hd), hne, hfirst, hlast⟩, ?_⟩
  have hexponent : e + 1 - ds.length = k + (e - 14) := by omega
  change (value ds : ℚ) * 10 ^ (e + 1 - ds.length) = _
  rw [fifteen, ← hvalue, hexponent, zpow_add₀ (by norm_num), zpow_natCast, Nat.cast_mul,
    Decimal.cast_placeValue, mul_assoc]

section Positional

variable (h : s.Normal)
include h

theorem Normal.positional_of_neg (he : s.exponent < 0) :
    ∃ a : Numeral, a.exponent = none ∧ a.text = s.positional ∧ a.value = s.size := by
  have hzero : Decimal.digits (value [0]) = [0] := by
    rw [Decimal.digits]
    rfl
  have hpart : ∀ d ∈ List.replicate ((-s.exponent).toNat - 1) 0 ++ s.digits, d < 10 :=
    List.forall_mem_append.2 ⟨Decimal.replicate_zero_lt _, h.digits_lt⟩
  have hlast : (List.replicate ((-s.exponent).toNat - 1) 0 ++ s.digits).getLast? ≠ some 0 := by
    rw [List.getLast?_append_of_ne_nil _ h.ne_nil]
    exact h.last
  obtain ⟨a, hexponent, htext, hvalue⟩ :=
    Numeral.exists_of_digits none hzero hpart hlast fun h => absurd h (by decide)
  refine ⟨a, hexponent, ?_, ?_⟩
  · rw [htext, positional, if_pos he, Numeral.partText,
      if_neg (List.append_ne_nil_of_right_ne_nil _ h.ne_nil), text_append, text_replicate_zero]
    exact List.append_nil _
  · have hsame : value ([0] ++ (List.replicate ((-s.exponent).toNat - 1) 0 ++ s.digits)) =
        value s.digits := by
      rw [value_append, value_append, value_replicate_zero, Nat.zero_mul, Nat.zero_add]
      exact (congrArg (· + _) (Nat.zero_mul _)).trans (Nat.zero_add _)
    rw [hvalue, hsame, size, List.length_append, List.length_replicate, Option.getD_none]
    congr 2
    omega

theorem Normal.positional_of_le (he : 0 ≤ s.exponent)
    (hle : s.digits.length ≤ s.exponent.toNat + 1) :
    ∃ a : Numeral, a.exponent = none ∧ a.text = s.positional ∧ a.value = s.size := by
  have hds : Decimal.digits
      (value (s.digits ++ List.replicate (s.exponent.toNat + 1 - s.digits.length) 0)) =
      s.digits ++ List.replicate (s.exponent.toNat + 1 - s.digits.length) 0 := by
    refine Decimal.digits_value
      (List.forall_mem_append.2 ⟨h.digits_lt, Decimal.replicate_zero_lt _⟩)
      (List.append_ne_nil_of_left_ne_nil h.ne_nil _) ?_
    rw [List.head?_append_of_ne_nil _ h.ne_nil]
    exact h.first
  have hnone : ∀ d ∈ ([] : List Nat), d < 10 := fun d hd => absurd hd List.not_mem_nil
  obtain ⟨a, hexponent, htext, hvalue⟩ :=
    Numeral.exists_of_digits none hds hnone (by simp) fun h => absurd h (by decide)
  refine ⟨a, hexponent, ?_, ?_⟩
  · rw [htext, positional, if_neg (Int.not_lt.2 he)]
    dsimp only
    rw [if_pos hle, text_append, text_replicate_zero]
    exact (List.append_nil _).trans (List.append_nil _)
  · have hexp : s.exponent + 1 - s.digits.length =
        (s.exponent.toNat + 1 - s.digits.length : Nat) := by omega
    rw [hvalue, List.append_nil, value_append, value_replicate_zero, List.length_replicate,
      Nat.add_zero, Nat.cast_mul, Decimal.cast_placeValue, size, hexp, zpow_natCast]
    exact mul_one _

theorem Normal.positional_of_lt (he : 0 ≤ s.exponent)
    (hlt : s.exponent.toNat + 1 < s.digits.length) :
    ∃ a : Numeral, a.exponent = none ∧ a.text = s.positional ∧ a.value = s.size := by
  have hsplit := List.take_append_drop (s.exponent.toNat + 1) s.digits
  have htake : s.digits.take (s.exponent.toNat + 1) ≠ [] := by
    rw [Ne, List.take_eq_nil_iff]
    simp [h.ne_nil]
  have hdrop : s.digits.drop (s.exponent.toNat + 1) ≠ [] := by
    rw [Ne, List.drop_eq_nil_iff]
    omega
  have hds := Decimal.digits_value
    (fun d hd => h.digits_lt d (List.mem_of_mem_take hd)) htake
    (by rw [← List.head?_append_of_ne_nil _ htake, hsplit]; exact h.first)
  have hlast : (s.digits.drop (s.exponent.toNat + 1)).getLast? ≠ some 0 := by
    rw [← List.getLast?_append_of_ne_nil _ hdrop, hsplit]
    exact h.last
  obtain ⟨a, hexponent, htext, hvalue⟩ := Numeral.exists_of_digits none hds
    (fun d hd => h.digits_lt d (List.mem_of_mem_drop hd)) hlast fun h => absurd h (by decide)
  refine ⟨a, hexponent, ?_, ?_⟩
  · rw [htext, positional, if_neg (Int.not_lt.2 he)]
    dsimp only
    rw [if_neg (Nat.not_le.2 hlt), Numeral.partText, if_neg hdrop]
    exact List.append_nil _
  · rw [hvalue, hsplit, size, List.length_drop, Option.getD_none]
    congr 2
    omega

theorem Normal.exists_positional :
    ∃ a : Numeral, a.exponent = none ∧ a.text = s.positional ∧ a.value = s.size := by
  rcases lt_or_ge s.exponent 0 with he | he
  · exact h.positional_of_neg he
  rcases Nat.lt_or_ge (s.exponent.toNat + 1) s.digits.length with hlt | hle
  · exact h.positional_of_lt he hlt
  · exact h.positional_of_le he hle

end Positional

theorem length_digits_exponent {e : Int} (he : e.natAbs < 1000) :
    (Decimal.digits e.natAbs).length ≤ exponentDigits e := by
  unfold exponentDigits
  split
  · exact Decimal.length_digits_le (by decide) he
  · rename_i hlt
    exact Decimal.length_digits_le (by decide) (Nat.not_le.1 hlt)

/-- What is foreseen above the digits of an exponent is one zero at most. -/
theorem exponentText_eq {e : Int} (he : e.natAbs < 1000) :
    exponentText e = Numeral.exponentText e := by
  have hpadding : exponentDigits e - (Decimal.digits e.natAbs).length =
      if e.natAbs < 10 then 1 else 0 := by
    unfold exponentDigits
    split_ifs with hthree hone hone
    · omega
    · rw [Decimal.length_digits_of_bounds (k := 2) hthree he]
    · rw [Decimal.digits, if_pos hone]
      rfl
    · rw [Decimal.length_digits_of_bounds (k := 1) (Nat.not_lt.1 hone) (Nat.not_le.1 hthree)]
  unfold exponentText Numeral.exponentText Numeral.exponentDigits
  dsimp only
  rw [Decimal.text, List.length_map, hpadding]
  split_ifs <;> rfl

theorem Normal.exists_exponential (h : s.Normal) (he : s.exponent.natAbs < 1000) :
    ∃ a : Numeral, a.exponent.isSome ∧ a.text = s.exponential ∧ a.value = s.size := by
  obtain ⟨d, ds, hdigits⟩ := List.exists_cons_of_ne_nil h.ne_nil
  have hlt : ∀ c ∈ d :: ds, c < 10 := hdigits ▸ h.digits_lt
  have hd : d < 10 := hlt d List.mem_cons_self
  have hvalue : value [d] = d := Nat.zero_add d
  have hpos : 0 < d := by
    refine Nat.pos_of_ne_zero fun hzero => h.first ?_
    rw [hdigits, hzero]
    rfl
  have hds : Decimal.digits (value [d]) = [d] := by rw [hvalue, Decimal.digits, if_pos hd]
  have hlast : ds.getLast? ≠ some 0 := by
    intro hzero
    refine h.last ?_
    rw [hdigits, List.getLast?_cons, hzero]
    rfl
  obtain ⟨a, hexponent, htext, hnumber⟩ := Numeral.exists_of_digits (some s.exponent) hds
    (fun c hc => hlt c (List.mem_cons_of_mem _ hc)) hlast fun _ => by rwa [hvalue, and_iff_left hd]
  refine ⟨a, hexponent ▸ rfl, ?_, ?_⟩
  · rw [htext, exponential, hdigits, exponentText_eq he, Numeral.partText, Numeral.suffixText]
    cases ds with
    | nil => rfl
    | cons c ds => rfl
  · rw [hnumber, size, hdigits, List.length_cons, Option.getD_some, List.singleton_append]
    congr 2
    omega

theorem Normal.length_positional (h : s.Normal) : s.positional.length = s.positionalWidth := by
  have hpos := List.length_pos_iff.2 h.ne_nil
  unfold positional positionalWidth
  dsimp only
  split_ifs <;> simp [Decimal.text] <;> omega

theorem Normal.length_exponential (h : s.Normal) (he : s.exponent.natAbs < 1000) :
    s.exponential.length = s.exponentialWidth := by
  have hpos := List.length_pos_iff.2 h.ne_nil
  have hle := length_digits_exponent he
  unfold exponential exponentialWidth exponentText
  split_ifs <;> simp [Decimal.text] <;> omega

/-- The text is the shorter one of the only two numerals, the one without an exponent when they are
equally long. -/
theorem Normal.text_narrower (h : s.Normal) (he : s.exponent.natAbs < 1000) :
    ∃ fixed scientific : Numeral, fixed.exponent = none ∧ scientific.exponent.isSome ∧
      fixed.value = s.size ∧ scientific.value = s.size ∧
      s.text = if fixed.text.length ≤ scientific.text.length then fixed.text
        else scientific.text := by
  obtain ⟨fixed, hnone, hfixed, hvalue⟩ := h.exists_positional
  obtain ⟨scientific, hsome, hscientific, hvalue'⟩ := h.exists_exponential he
  refine ⟨fixed, scientific, hnone, hsome, hvalue, hvalue', ?_⟩
  rw [hfixed, hscientific, text, ← h.length_positional, ← h.length_exponential he]
  simp only [Nat.cast_le]

end Scientific

namespace Double

open Scientific (Nearest fifteen)

variable {x : Double} {m : Nat} {e : Int}

theorem text?_of_finite (hnan : x.isNaN = false) (hinfinite : x.isInfinite = false)
    (hzero : x.isZero = false) : x.text? =
      some (String.ofList ((if x.isNegative then ['-'] else []) ++
        (Scientific.ofDouble x).text)) := by
  rw [text?, isNA, hnan, hinfinite, hzero]
  cases x.isNegative <;> rfl

theorem nearest_ofDouble (hzero : x.isZero = false) :
    Nearest x.size (Scientific.roundRatio x.numerator x.denominator).1
      (Scientific.roundRatio x.numerator x.denominator).2 := by
  rw [size_eq]
  exact Scientific.nearest_roundRatio (numerator_pos hzero) x.denominator_pos

theorem exponent_roundRatio (hnan : x.isNaN = false) (hinfinite : x.isInfinite = false)
    (hzero : x.isZero = false) :
    (Scientific.roundRatio x.numerator x.denominator).2.natAbs < 1000 := by
  obtain ⟨hlow, hhigh⟩ :=
    Scientific.ratioLog10_bounds (numerator_pos hzero) x.denominator_pos
  obtain ⟨hsmall, hlarge⟩ := size_bounds hnan hinfinite hzero
  rw [← size_eq] at hlow hhigh
  have hten : (1 : ℚ) < 10 := by norm_num
  -- three binary digits are less than a decimal one
  have hthree : ∀ k : Int, 0 ≤ k → (2 : ℚ) ^ (3 * k) ≤ 10 ^ k := by
    intro k hk
    rw [zpow_mul]
    exact zpow_le_zpow_left₀ hk (by norm_num) (by norm_num)
  have hup : (10 : ℚ) ^ Scientific.ratioLog10 x.numerator x.denominator < 10 ^ (342 : Int) :=
    calc (10 : ℚ) ^ Scientific.ratioLog10 x.numerator x.denominator
      _ < 2 ^ (1024 : Int) := hlow.trans_lt hlarge
      _ ≤ 2 ^ (3 * 342 : Int) := zpow_le_zpow_right₀ (by norm_num) (by norm_num)
      _ ≤ 10 ^ (342 : Int) := hthree 342 (by norm_num)
  have hdown : (10 : ℚ) ^ (-358 : Int) <
      10 ^ (Scientific.ratioLog10 x.numerator x.denominator + 1) :=
    calc (10 : ℚ) ^ (-358 : Int)
      _ ≤ 2 ^ (-(3 * 358) : Int) := by
        rw [zpow_neg, zpow_neg]
        exact inv_anti₀ (zpow_pos (by norm_num) _) (hthree 358 (by norm_num))
      _ ≤ x.size := hsmall
      _ < _ := hhigh
  have hk := (zpow_lt_zpow_iff_right₀ hten).1 hup
  have hk' := (zpow_lt_zpow_iff_right₀ hten).1 hdown
  rcases Scientific.roundRatio_exponent x.numerator x.denominator with heq | heq <;>
    rw [heq] <;> omega

theorem text?_eq_numeral (hnan : x.isNaN = false) (hinfinite : x.isInfinite = false)
    (hzero : x.isZero = false) (h : Nearest x.size m e) :
    ∃ fixed scientific : Numeral, fixed.exponent = none ∧ scientific.exponent.isSome ∧
      fixed.value = fifteen m e ∧ scientific.value = fifteen m e ∧
      x.text? = some (String.ofList ((if x.isNegative then ['-'] else []) ++
        if fixed.text.length ≤ scientific.text.length then fixed.text else scientific.text)) := by
  have hround := nearest_ofDouble hzero
  have hexponent := exponent_roundRatio hnan hinfinite hzero
  obtain ⟨hm, he⟩ := h.unique hround
  obtain ⟨hnormal, hsize⟩ := hround.isFifteen.trimmed
    (Scientific.roundRatio x.numerator x.denominator).2
  obtain ⟨fixed, scientific, hnone, hsome, hfixed, hscientific, htext⟩ :=
    hnormal.text_narrower hexponent
  rw [hsize, ← hm, ← he] at hfixed hscientific
  refine ⟨fixed, scientific, hnone, hsome, hfixed, hscientific, ?_⟩
  rw [text?_of_finite hnan hinfinite hzero, ← htext]
  rfl

theorem exists_numeral (hnan : x.isNaN = false) (hinfinite : x.isInfinite = false)
    (hzero : x.isZero = false) (h : Nearest x.size m e) : ∃ a : Numeral, a.value = fifteen m e ∧
      x.text? = some (String.ofList ((if x.isNegative then ['-'] else []) ++ a.text)) := by
  obtain ⟨fixed, scientific, -, -, hfixed, hscientific, htext⟩ :=
    text?_eq_numeral hnan hinfinite hzero h
  by_cases hle : fixed.text.length ≤ scientific.text.length
  · rw [if_pos hle] at htext
    exact ⟨fixed, hfixed, htext⟩
  · rw [if_neg hle] at htext
    exact ⟨scientific, hscientific, htext⟩

/-- The text of a number is a minus if it is below zero and a numeral of the nearest number of
fifteen digits: of the only two numerals, one without an exponent and one with it, the shorter one,
and the one without if they are equally long. -/
theorem narrower_text (hnan : x.isNaN = false) (hinfinite : x.isInfinite = false)
    (hzero : x.isZero = false) : (∃ m e, Nearest x.size m e) ∧
      ∀ m e, Nearest x.size m e → ∃ fixed scientific : Numeral,
        fixed.exponent = none ∧ scientific.exponent.isSome ∧
        fixed.value = fifteen m e ∧ scientific.value = fifteen m e ∧
        (∀ a : Numeral, a.value = fifteen m e → a = fixed ∨ a = scientific) ∧
        x.text? = some (String.ofList ((if x.toRat < 0 then ['-'] else []) ++
          if fixed.text.length ≤ scientific.text.length then fixed.text
          else scientific.text)) := by
  refine ⟨⟨_, _, nearest_ofDouble hzero⟩, fun m e hnearest => ?_⟩
  obtain ⟨fixed, scientific, hnone, hsome, hfixed, hscientific, htext⟩ :=
    text?_eq_numeral hnan hinfinite hzero hnearest
  refine ⟨fixed, scientific, hnone, hsome, hfixed, hscientific, fun a ha => ?_, ?_⟩
  · cases hkind : a.exponent with
    | none =>
      exact .inl (Numeral.eq_of_value (by rw [hkind, hnone]) (ha.trans hfixed.symm))
    | some e =>
      exact .inr (Numeral.eq_of_value (by rw [hkind, hsome]; rfl) (ha.trans hscientific.symm))
  · rw [htext]
    simp only [toRat_neg_iff hzero]

def hundredThousand : Numeral × Numeral :=
  (⟨100000, [], none, by simp, by simp, by simp⟩, ⟨1, [], some 5, by simp, by simp, by simp⟩)

theorem value_hundredThousand : hundredThousand.1.value = fifteen (10 ^ 14) 5 ∧
    hundredThousand.2.value = fifteen (10 ^ 14) 5 := by
  constructor <;>
    norm_num [hundredThousand, Numeral.value, Numeral.mantissa, Decimal.fraction, fifteen]

theorem text_hundredThousand : hundredThousand.1.text = "100000".toList ∧
    hundredThousand.2.text = "1e+05".toList := by
  constructor <;> simp [hundredThousand, Numeral.text, Numeral.partText, Numeral.suffixText,
    Numeral.exponentText, Numeral.exponentDigits, Decimal.digits, Decimal.text, Decimal.digitChar]

theorem narrower_text_hundred_thousand : (ofInt (-100000)).isNaN = false ∧
    (ofInt (-100000)).isInfinite = false ∧ (ofInt (-100000)).isZero = false ∧
    (ofInt (-100000)).text? = some "-1e+05" := by
  have hzero : (ofInt (-100000)).isZero = false := by decide
  have hsize : (ofInt (-100000)).size = fifteen (10 ^ 14) 5 := by
    rw [size_ofInt (by decide) (by decide), fifteen]
    norm_num
  have hnearest : Nearest (ofInt (-100000)).size (10 ^ 14) 5 :=
    hsize ▸ Scientific.nearest_self ⟨le_refl _, by decide⟩ 5
  have hwhole := whole_ofInt (i := -100000) (by decide)
  have hnegative : (ofInt (-100000)).toRat < 0 := by
    rw [toRat_ofInt (by decide)]
    norm_num
  obtain ⟨fixed, scientific, hnone, hsome, -, -, honly, htext⟩ :=
    (narrower_text hwhole.1 hwhole.2.1 hzero).2 _ _ hnearest
  -- the two numerals are told apart by their exponents
  obtain rfl : hundredThousand.1 = fixed :=
    (honly _ value_hundredThousand.1).resolve_right fun h => by
      rw [← h] at hsome
      cases hsome
  obtain rfl : hundredThousand.2 = scientific :=
    (honly _ value_hundredThousand.2).resolve_left fun h => by
      have hsame := congrArg Numeral.exponent h
      cases hsame
  refine ⟨hwhole.1, hwhole.2.1, hzero, htext.trans ?_⟩
  rw [if_pos hnegative, text_hundredThousand.1, text_hundredThousand.2]
  rfl

end Double

end LazyVectors
