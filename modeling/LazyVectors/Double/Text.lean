import LazyVectors.Decimal
import LazyVectors.Double
set_option autoImplicit false

namespace LazyVectors

/-- The number `0.d₁d₂d₃… · 10 ^ (exponent + 1)`, that is `d₁.d₂d₃… · 10 ^ exponent`. -/
structure Scientific where
  digits : List Nat
  exponent : Int
  deriving DecidableEq, Repr

namespace Scientific

def ratioLog10 (n d : Nat) : Int :=
  if d ≤ n then ((Decimal.digits (n / d)).length : Int) - 1
  else -((Decimal.digits ((d + n - 1) / n - 1)).length : Int)

/-- The fifteen-digit whole number and the exponent of its first digit nearest to `n / d`. -/
def roundRatio (n d : Nat) : Nat × Int :=
  let e := ratioLog10 n d
  let s := 14 - e
  let m := Double.roundQuotient (n * Decimal.placeValue s.toNat)
    (d * Decimal.placeValue (-s).toNat)
  if m = Decimal.placeValue 15 then (Decimal.placeValue 14, e + 1) else (m, e)

def dropTrailingZeros (ds : List Nat) : List Nat := (ds.reverse.dropWhile (· == 0)).reverse

def ofDouble (x : Double) : Scientific :=
  let (m, e) := roundRatio x.numerator x.denominator
  ⟨dropTrailingZeros (Decimal.digits m), e⟩

def positional (s : Scientific) : List Char :=
  if s.exponent < 0 then
    '0' :: '.' :: List.replicate ((-s.exponent).toNat - 1) '0' ++ Decimal.text s.digits
  else
    let whole := s.exponent.toNat + 1
    if s.digits.length ≤ whole then
      Decimal.text s.digits ++ List.replicate (whole - s.digits.length) '0'
    else Decimal.text (s.digits.take whole) ++ '.' :: Decimal.text (s.digits.drop whole)

def exponentDigits (e : Int) : Nat := if 100 ≤ e.natAbs then 3 else 2

def exponentText (e : Int) : List Char :=
  let ds := Decimal.text (Decimal.digits e.natAbs)
  (if e < 0 then '-' else '+') :: List.replicate (exponentDigits e - ds.length) '0' ++ ds

def exponential (s : Scientific) : List Char :=
  Decimal.text (s.digits.take 1) ++
    (if s.digits.length ≤ 1 then [] else '.' :: Decimal.text (s.digits.drop 1)) ++
    'e' :: exponentText s.exponent

def positionalWidth (s : Scientific) : Int :=
  if s.exponent < 0 then s.digits.length - s.exponent + 1
  else if s.exponent + 1 < s.digits.length then s.digits.length + 1
  else s.exponent + 1

def exponentialWidth (s : Scientific) : Int :=
  s.digits.length + (if 1 < s.digits.length then 1 else 0) + 2 + exponentDigits s.exponent

/-- The narrower of both, the positional one when they are equally wide. -/
def text (s : Scientific) : List Char :=
  if s.positionalWidth ≤ s.exponentialWidth then s.positional else s.exponential

end Scientific

namespace Double

def text? (x : Double) : Option String :=
  if x.isNA then none
  else if x.isNaN then some "NaN"
  else if x.isInfinite then some (if x.isNegative then "-Inf" else "Inf")
  else if x.isZero then some "0"
  else
    let body := (Scientific.ofDouble x).text
    some (String.ofList (if x.isNegative then '-' :: body else body))

end Double

end LazyVectors
