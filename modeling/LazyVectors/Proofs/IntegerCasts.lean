import Mathlib.Data.List.Forall2
import LazyVectors.Cast
import LazyVectors.Proofs.WholeDoubles
/-!
Casts to integers. An element reads as a number, as nothing, or not at all; a number is cut off
toward zero, and one that is cut off to no integer of 32 bits is lost, with a warning. The least
of these integers stands for a missing one, so a number that is cut off to it is lost as well,
without one.
-/

set_option autoImplicit false

namespace LazyVectors

namespace Double

variable {x : Double} {i : Int}

/-- What is left of a finite number when its fraction is cut off. -/
structure CutTo (x : Double) (i : Int) : Prop where
  number : x.isNaN = false
  finite : x.isInfinite = false
  sign : if x.isNegative then i ≤ 0 else 0 ≤ i
  low : i.natAbs * x.denominator ≤ x.numerator
  high : x.numerator < (i.natAbs + 1) * x.denominator

theorem cutTo_iff :
    x.CutTo i ↔ x.isNaN = false ∧ x.isInfinite = false ∧ x.truncate = i := by
  have htruncate : x.truncate = if x.isNegative then -((x.numerator / x.denominator : Nat) : Int)
    else (x.numerator / x.denominator : Nat) := rfl
  constructor
  · intro h
    refine ⟨h.number, h.finite, ?_⟩
    have hquotient : x.numerator / x.denominator = i.natAbs := Nat.div_eq_of_lt_le h.low h.high
    have hsign := h.sign
    rw [htruncate, hquotient]
    split <;> rename_i hnegative
    · rw [if_pos hnegative] at hsign
      omega
    · rw [if_neg hnegative] at hsign
      omega
  · rintro ⟨hnumber, hfinite, rfl⟩
    have hsize : x.truncate.natAbs = x.numerator / x.denominator := by
      rw [htruncate]
      split
      · rw [Int.natAbs_neg, Int.natAbs_natCast]
      · rw [Int.natAbs_natCast]
    refine ⟨hnumber, hfinite, ?_, ?_, ?_⟩
    · rw [htruncate]
      split
      · exact Int.neg_nonpos_of_nonneg (Int.natCast_nonneg _)
      · exact Int.natCast_nonneg _
    · rw [hsize]
      exact Nat.div_mul_le_self _ _
    · rw [hsize, Nat.mul_comm]
      exact Nat.lt_mul_div_succ _ x.denominator_pos

theorem toInteger_of_isNaN (h : x.isNaN = true) : x.toInteger = .hole := by
  rw [toInteger, if_pos h]

theorem toInteger_of_cutTo {i : Int32} (h : x.CutTo i.toInt) : x.toInteger = .kept i := by
  obtain ⟨hnumber, hfinite, hcut⟩ := cutTo_iff.1 h
  have hlow := i.minValue_le_toInt
  have hhigh := i.toInt_le
  have hmin : Int32.minValue.toInt = -2147483648 := rfl
  have hmax : Int32.maxValue.toInt = 2147483647 := rfl
  have hwithin : x.truncateWithin (Int32.minValue.toInt - 1) (Int32.maxValue.toInt + 1) =
      i.toInt := by
    rw [truncateWithin, hfinite, if_neg Bool.false_ne_true, hcut]
    omega
  rw [toInteger, hnumber, if_neg Bool.false_ne_true, hwithin, if_neg (by omega), Int32.ofInt_toInt]

theorem toInteger_ofInt (i : Int32) : (ofInt i.toInt).toInteger = .kept i :=
  toInteger_of_cutTo (cutTo_iff.2 (whole_toInt i))

theorem toInteger_of_not_cutTo (hnumber : x.isNaN = false) (h : ∀ i : Int32, ¬x.CutTo i.toInt) :
    x.toInteger = .loss := by
  have hmin : Int32.minValue.toInt = -2147483648 := rfl
  have hmax : Int32.maxValue.toInt = 2147483647 := rfl
  rw [toInteger, hnumber, if_neg Bool.false_ne_true]
  refine if_pos ?_
  cases hfinite : x.isInfinite with
  | true =>
    rw [truncateWithin, if_pos hfinite]
    split <;> omega
  | false =>
    rw [truncateWithin, hfinite, if_neg Bool.false_ne_true]
    by_contra hinside
    have hlow : Int32.minValue.toInt ≤ x.truncate := by omega
    have hhigh : x.truncate ≤ Int32.maxValue.toInt := by omega
    refine h (Int32.ofInt x.truncate) (cutTo_iff.2 ⟨hnumber, hfinite, ?_⟩)
    rw [Int32.toInt_ofInt_of_le (by omega) (by omega)]

end Double

/-- What an element reads as when a number is asked for: nothing where it is missing, and nothing
sensible where it is a text that is no number. -/
inductive NumericReading where
  | missing
  | number (x : Double)
  | unreadable

namespace NumericReading

def ofLogical : Option Bool → NumericReading
  | none => missing
  | some b => number (.ofInt (if b then 1 else 0))

def ofInteger (i : Int32) : NumericReading :=
  if Element.isNA i then missing else number (.ofInt i.toInt)

def ofComplex (c : Cplx) : NumericReading := if Element.isNA c then missing else number c.re

def ofText : Option String → NumericReading
  | none => missing
  | some s =>
    match Double.read? s with
    | some x => number x
    | none => unreadable

def Counts : NumericReading → Prop
  | missing => False
  | number x => x.isNaN = false
  | unreadable => True

def Lost : NumericReading → Prop
  | missing => False
  | number x => x.isNaN = false ∧ ∀ i : Int32, ¬x.CutTo i.toInt
  | unreadable => True

def CutToHole (r : NumericReading) : Prop := ∃ x, r = number x ∧ x.CutTo Int32.minValue.toInt

def toInteger : NumericReading → Converted Int32
  | missing => .hole
  | number x => x.toInteger
  | unreadable => .loss

/-- The integer that an element becomes. -/
inductive Becomes : NumericReading → Int32 → Prop where
  | hole {r : NumericReading} : ¬r.Counts → Becomes r Element.hole
  | loss {r : NumericReading} : r.Lost → Becomes r Element.hole
  | cut {x : Double} {i : Int32} : x.CutTo i.toInt → Becomes (number x) i

variable {r : NumericReading}

theorem Lost.counts (h : r.Lost) : r.Counts := by
  cases r with
  | missing => exact h
  | number x => exact h.1
  | unreadable => trivial

theorem toInteger_cases (r : NumericReading) :
    (¬r.Counts ∧ r.toInteger = .hole) ∨ (r.Lost ∧ r.toInteger = .loss) ∨
      ∃ x i, r = number x ∧ x.CutTo i.toInt ∧ r.toInteger = .kept i := by
  cases r with
  | missing => exact .inl ⟨id, rfl⟩
  | unreadable => exact .inr (.inl ⟨trivial, rfl⟩)
  | number x =>
    cases hnumber : x.isNaN with
    | true => exact .inl ⟨by simp [Counts, hnumber], x.toInteger_of_isNaN hnumber⟩
    | false =>
      by_cases hcut : ∃ i : Int32, x.CutTo i.toInt
      · obtain ⟨i, hi⟩ := hcut
        exact .inr (.inr ⟨x, i, rfl, hi, x.toInteger_of_cutTo hi⟩)
      · have hnone : ∀ i : Int32, ¬x.CutTo i.toInt := fun i hi => hcut ⟨i, hi⟩
        exact .inr (.inl ⟨⟨hnumber, hnone⟩, x.toInteger_of_not_cutTo hnumber hnone⟩)

theorem becomes_toInteger (r : NumericReading) : r.Becomes r.toInteger.value := by
  rcases r.toInteger_cases with ⟨hcounts, h⟩ | ⟨hlost, h⟩ | ⟨x, i, rfl, hcut, h⟩
  · rw [h]
    exact .hole hcounts
  · rw [h]
    exact .loss hlost
  · rw [h]
    exact .cut hcut

theorem lost_toInteger (r : NumericReading) : r.toInteger.lost = true ↔ r.Lost := by
  rcases r.toInteger_cases with ⟨hcounts, h⟩ | ⟨hlost, h⟩ | ⟨x, i, rfl, hcut, h⟩
  · simpa [h, Converted.hole] using fun hlost : r.Lost => hcounts hlost.counts
  · simpa [h, Converted.loss] using hlost
  · simpa [h, Converted.kept] using fun hlost : Lost (number x) => hlost.2 i hcut

theorem counts_and_isNA_toInteger (r : NumericReading) :
    (r.Counts ∧ Element.isNA r.toInteger.value = true) ↔ r.Lost ∨ r.CutToHole := by
  rcases r.toInteger_cases with ⟨hcounts, h⟩ | ⟨hlost, h⟩ | ⟨x, i, rfl, hcut, h⟩
  · refine ⟨fun hr => absurd hr.1 hcounts, ?_⟩
    rintro (hlost | ⟨x, rfl, hcut⟩)
    · exact absurd hlost.counts hcounts
    · exact absurd hcut.number hcounts
  · rw [h]
    exact ⟨fun _ => .inl hlost, fun _ => ⟨hlost.counts, rfl⟩⟩
  · rw [h]
    constructor
    · rintro ⟨-, hi⟩
      have hi : i = Int32.minValue := beq_iff_eq.1 hi
      exact .inr ⟨x, rfl, hi ▸ hcut⟩
    · rintro (hlost | ⟨y, hy, hhole⟩)
      · exact absurd hcut (hlost.2 i)
      · cases hy
        have hsame : i.toInt = Int32.minValue.toInt :=
          (Double.cutTo_iff.1 hcut).2.2.symm.trans (Double.cutTo_iff.1 hhole).2.2
        rw [Int32.toInt_inj.1 hsame]
        exact ⟨hcut.number, rfl⟩

end NumericReading

namespace Data

def readings : Data Value → List NumericReading
  | logical xs => xs.map .ofLogical
  | integer xs => xs.map .ofInteger
  | double xs => xs.map .number
  | complex xs => xs.map .ofComplex
  | character xs => xs.map .ofText
  | list _ => []

theorem toInteger_eq (d : Data Value) : d.toInteger = d.readings.map NumericReading.toInteger := by
  -- kind by kind, the cast looks at what an element reads as
  cases d with
  | logical xs =>
    simp only [toInteger, readings, List.map_map]
    refine List.map_congr_left fun b _ => ?_
    rcases b with _ | _ | _ <;> decide
  | integer xs =>
    simp only [toInteger, readings, List.map_map]
    refine List.map_congr_left fun i _ => ?_
    rw [Function.comp_apply, NumericReading.ofInteger]
    split
    · rename_i hi
      rw [show i = Int32.minValue from beq_iff_eq.1 hi]
      rfl
    · exact (Double.toInteger_ofInt i).symm
  | double xs => simp only [toInteger, readings, List.map_map]; rfl
  | complex xs =>
    simp only [toInteger, readings, List.map_map]
    refine List.map_congr_left fun c _ => ?_
    rw [Function.comp_apply, NumericReading.ofComplex]
    split <;> rfl
  | character xs =>
    simp only [toInteger, readings, List.map_map]
    refine List.map_congr_left fun s _ => ?_
    cases s with
    | none => rfl
    | some s =>
      simp only [Function.comp_apply, NumericReading.ofText, textToInteger]
      cases Double.read? s <;> rfl
  | list xs => rfl

theorem gather_kept {α β : Type} (make : List α → Data Value) (source target : Kind) (f : β → α)
    (xs : List β) :
    gather make source target (xs.map fun x => .kept (f x)) = .ok (make (xs.map f)) := by
  have hlost : (xs.map fun x => Converted.kept (f x)).any Converted.lost = false := by
    simp [Converted.kept]
  have hvalues : (xs.map fun x => Converted.kept (f x)).map Converted.value = xs.map f := by
    simp [Function.comp_def, Converted.kept]
  rw [gather, hlost, hvalues]
  rfl

variable {d : Data Value}

theorem cast_integer (hd : d.kind ≠ .list) :
    d.cast .integer = gather integer d.kind .integer d.toInteger := by
  cases d with
  | integer xs =>
    have hkept := gather_kept integer .integer .integer id xs
    rw [List.map_id] at hkept
    exact hkept.symm
  | list xs => exact absurd rfl hd
  | _ => rfl

theorem result_cast_integer (hd : d.kind ≠ .list) : (d.cast .integer).result =
    .ok (.integer (d.readings.map fun r => r.toInteger.value)) := by
  rw [cast_integer hd, toInteger_eq, gather, List.map_map]
  rfl

theorem warnings_cast_integer (hd : d.kind ≠ .list) :
    (d.cast .integer).warnings = [.introducedNA d.kind .integer] ∧ (∃ r ∈ d.readings, r.Lost) ∨
      (d.cast .integer).warnings = [] ∧ ∀ r ∈ d.readings, ¬r.Lost := by
  have hlost : (d.readings.map NumericReading.toInteger).any Converted.lost = true ↔
      ∃ r ∈ d.readings, r.Lost := by
    simp [NumericReading.lost_toInteger]
  rw [cast_integer hd, toInteger_eq, gather]
  split
  · exact .inl ⟨rfl, hlost.1 ‹_›⟩
  · rename_i hnone
    exact .inr ⟨rfl, fun r hr hloss => hnone (hlost.2 ⟨r, hr, hloss⟩)⟩

/-- The elements that count and become missing are lost or stand for that themselves. -/
theorem missing_of_counts (d : Data Value) :
    (∃ (k : Nat) (r : NumericReading) (i : Int32), d.readings[k]? = some r ∧ r.Counts ∧
      (d.readings.map fun r => r.toInteger.value)[k]? = some i ∧ Element.isNA i = true) ↔
      (∃ r ∈ d.readings, r.Lost) ∨ ∃ r ∈ d.readings, r.CutToHole := by
  constructor
  · rintro ⟨k, r, i, hr, hcounts, hi, hmissing⟩
    rw [List.getElem?_map, hr] at hi
    cases hi
    have hmem := List.mem_of_getElem? hr
    exact (r.counts_and_isNA_toInteger.1 ⟨hcounts, hmissing⟩).imp (⟨r, hmem, ·⟩) (⟨r, hmem, ·⟩)
  · intro h
    obtain ⟨r, hmem, hr⟩ : ∃ r ∈ d.readings, r.Lost ∨ r.CutToHole := by
      rcases h with ⟨r, hmem, hr⟩ | ⟨r, hmem, hr⟩
      · exact ⟨r, hmem, .inl hr⟩
      · exact ⟨r, hmem, .inr hr⟩
    obtain ⟨k, hk⟩ := List.mem_iff_getElem?.1 hmem
    obtain ⟨hcounts, hmissing⟩ := r.counts_and_isNA_toInteger.2 hr
    exact ⟨k, r, _, hk, hcounts, by rw [List.getElem?_map, hk]; rfl, hmissing⟩

/-- No number is lost without notice: there is a warning exactly when an element becomes missing
that counts, and otherwise all of these are cut off. -/
def CastsWithNotice (d : Data Value) : Prop :=
  ∃ is, (d.cast .integer).result = .ok (.integer is) ∧
    ((d.cast .integer).warnings = [.introducedNA d.kind .integer] ↔
      ∃ (k : Nat) (r : NumericReading) (i : Int32), d.readings[k]? = some r ∧ r.Counts ∧
        is[k]? = some i ∧ Element.isNA i = true) ∧
    ((d.cast .integer).warnings ≠ [.introducedNA d.kind .integer] →
      ∀ (k : Nat) (r : NumericReading), d.readings[k]? = some r → r.Counts →
        ∃ (x : Double) (i : Int32), r = .number x ∧ is[k]? = some i ∧ x.CutTo i.toInt)

end Data

/-- A cast to integers never fails. It cuts numbers off toward zero and says so, once, if there is
one of which no integer of 32 bits is left, or a text that is no number: these become missing, and
so does what was missing or not a number before. All that is lost without notice is a number that
is cut off to the least integer. -/
theorem integer_cast_warns {d : Data Value} (hd : d.kind ≠ .list) :
    ∃ is, (d.cast .integer).result = .ok (.integer is) ∧
      List.Forall₂ NumericReading.Becomes d.readings is ∧
      ((d.cast .integer).warnings = [.introducedNA d.kind .integer] ∧ (∃ r ∈ d.readings, r.Lost) ∨
        (d.cast .integer).warnings = [] ∧ ∀ r ∈ d.readings, ¬r.Lost) ∧
      (d.CastsWithNotice ↔
        ((∃ r ∈ d.readings, r.CutToHole) → ∃ r ∈ d.readings, r.Lost)) := by
  have hresult := Data.result_cast_integer hd
  have hwarnings := Data.warnings_cast_integer hd
  have hbecomes : List.Forall₂ NumericReading.Becomes d.readings
      (d.readings.map fun r => r.toInteger.value) := by
    rw [List.forall₂_map_right_iff]
    exact List.forall₂_same.2 fun r _ => r.becomes_toInteger
  refine ⟨_, hresult, hbecomes, hwarnings, ?_⟩
  have hwarned : (d.cast .integer).warnings = [.introducedNA d.kind .integer] ↔
      ∃ r ∈ d.readings, r.Lost := by
    rcases hwarnings with ⟨hw, hlost⟩ | ⟨hw, hnone⟩
    · exact ⟨fun _ => hlost, fun _ => hw⟩
    · rw [hw]
      exact ⟨fun h => (nomatch h), fun ⟨r, hr, hlost⟩ => absurd hlost (hnone r hr)⟩
  constructor
  · rintro ⟨is, his, hnotice, -⟩ hhole
    rw [hresult] at his
    cases his
    exact hwarned.1 (hnotice.2 (d.missing_of_counts.2 (.inr hhole)))
  · intro hcovered
    refine ⟨_, hresult, ?_, fun hsilent k r hr hcounts => ?_⟩
    · rw [hwarned, d.missing_of_counts]
      exact ⟨.inl, fun h => h.elim id hcovered⟩
    · rcases r.toInteger_cases with ⟨hnot, -⟩ | ⟨hlost, -⟩ | ⟨x, i, rfl, hcut, hkept⟩
      · exact absurd hcounts hnot
      · exact absurd (hwarned.2 ⟨r, List.mem_of_getElem? hr, hlost⟩) hsilent
      · exact ⟨x, i, rfl, by rw [List.getElem?_map, hr, Option.map_some, hkept]; rfl, hcut⟩

def mixedTexts : Data Value := .character [some "12.7", some "x", none]

theorem integer_cast_warns_unreadable :
    mixedTexts.kind ≠ .list ∧
    (mixedTexts.cast .integer).warnings = [.introducedNA .character .integer] ∧
    mixedTexts.CastsWithNotice := by
  have hd : mixedTexts.kind ≠ .list := by decide
  have hlost : ∃ r ∈ mixedTexts.readings, r.Lost :=
    ⟨.unreadable, List.mem_cons_of_mem _ List.mem_cons_self, trivial⟩
  obtain ⟨is, -, -, hwarnings, hnotice⟩ := integer_cast_warns hd
  refine ⟨hd, ?_, hnotice.2 fun _ => hlost⟩
  rcases hwarnings with ⟨hw, -⟩ | ⟨-, hnone⟩
  · exact hw
  · obtain ⟨r, hr, hloss⟩ := hlost
    exact absurd hloss (hnone r hr)

def leastNumber : Data Value := .double [.ofInt Int32.minValue.toInt]

/-- It becomes missing, and nothing is said. -/
theorem integer_cast_of_least_silent :
    (leastNumber.cast .integer).warnings = [] ∧
    (leastNumber.cast .integer).result = .ok (.integer [Element.hole]) ∧
    ¬leastNumber.CastsWithNotice := by
  have hwarnings : (leastNumber.cast .integer).warnings = [] := by decide +kernel
  have hresult : (leastNumber.cast .integer).result = .ok (.integer [Element.hole]) := rfl
  have hcounts : NumericReading.Counts (.number (.ofInt Int32.minValue.toInt)) := by
    rw [NumericReading.Counts]
    decide
  refine ⟨hwarnings, hresult, ?_⟩
  rintro ⟨is, his, hnotice, -⟩
  rw [hresult] at his
  cases his
  have hmissing := hnotice.2 ⟨0, _, _, rfl, hcounts, rfl, rfl⟩
  rw [hwarnings] at hmissing
  cases hmissing

end LazyVectors
