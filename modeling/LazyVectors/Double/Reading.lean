import LazyVectors.Decimal
import LazyVectors.Double
/-!
Reading numbers from text: decimal numerals with an optional fraction and exponent, whole
numbers in base sixteen, the names of the infinities and of the NaNs, and `NA`. Blanks around
the number are ignored.
-/

set_option autoImplicit false

namespace LazyVectors

def isBlank (c : Char) : Bool :=
  let n := c.toNat
  9 ≤ n && n ≤ 13 || n == 0x20 || n == 0x85 || n == 0xA0 || n == 0x1680 ||
    0x2000 ≤ n && n ≤ 0x200A || n == 0x2028 || n == 0x2029 || n == 0x202F || n == 0x205F ||
    n == 0x3000

def trimBlanks (cs : List Char) : List Char :=
  ((cs.dropWhile isBlank).reverse.dropWhile isBlank).reverse

namespace Decimal

def takeDigits : List Char → List Nat × List Char
  | [] => ([], [])
  | c :: cs =>
    match digit? c with
    | some d => (d :: (takeDigits cs).1, (takeDigits cs).2)
    | none => ([], c :: cs)

end Decimal

def takeSign : List Char → Bool × List Char
  | '-' :: cs => (true, cs)
  | '+' :: cs => (false, cs)
  | cs => (false, cs)

namespace Double

/-- The nearest number to `m · 10 ^ e`. Exponents far outside the range of finite numbers are
decided without computing the power. -/
def ofDecimal (negative : Bool) (m : Nat) (e : Int) : Double :=
  let top := ((Decimal.digits m).length : Int) + e
  if m = 0 ∨ top < -400 then ofRatio negative 0 1
  else if 400 < top then (if negative then infinity.neg else infinity)
  else ofRatio negative (m * Decimal.placeValue e.toNat) (Decimal.placeValue (-e).toNat)

def readExponent? : List Char → Option Int
  | [] => some 0
  | c :: cs =>
    if c = 'e' ∨ c = 'E' then
      let (negative, rest) := takeSign cs
      let (ds, tail) := Decimal.takeDigits rest
      if ds.isEmpty || !tail.isEmpty then none
      else some (if negative then -(Decimal.value ds : Int) else Decimal.value ds)
    else none

def readDecimal? (negative : Bool) (cs : List Char) : Option Double :=
  let (whole, rest) := Decimal.takeDigits cs
  let (part, tail) :=
    match rest with
    | '.' :: rest => Decimal.takeDigits rest
    | rest => ([], rest)
  if whole.isEmpty && part.isEmpty then none
  else (readExponent? tail).map fun e =>
    ofDecimal negative (Decimal.value (whole ++ part)) (e - part.length)

def readName? (negative : Bool) (cs : List Char) : Option Double :=
  match String.ofList (cs.map Char.toLower) with
  | "inf" | "infinity" => some (if negative then infinity.neg else infinity)
  | "nan" => some nan
  | _ => none

/-- A whole number in base sixteen with a sign of its own, if it fits 64 bits. -/
def readHex? (cs : List Char) : Option Double :=
  let (negative, rest) := takeSign cs
  if rest.isEmpty then none
  else (rest.mapM Decimal.hexDigit?).bind fun ds =>
    let n : Int := Decimal.valueIn 16 ds
    let i := if negative then -n else n
    if Int64.minValue.toInt ≤ i ∧ i ≤ Int64.maxValue.toInt then some (ofInt i) else none

def read? (s : String) : Option Double :=
  let cs := trimBlanks s.toList
  if cs = ['N', 'A'] then some na
  else
    let (negative, body) := takeSign cs
    match body with
    | '0' :: 'x' :: hex | '0' :: 'X' :: hex =>
      (readHex? hex).map fun x => if negative then x.neg else x
    | _ => readDecimal? negative body <|> readName? negative body

end Double

end LazyVectors
