/-!
Binary floating-point numbers of 64 bits, kept as their bit patterns, with exact arithmetic on
what the patterns denote. A finite number is a signed multiple `significand · 2 ^ scale`. One
family of NaN patterns stands for a missing value; `identical` is the equality that keeps it
apart from the other NaNs and does not tell the signed zeros apart.
-/

set_option autoImplicit false

namespace LazyVectors

structure Double where
  bits : UInt64
  deriving DecidableEq, Repr

namespace Double

def ofNat (n : Nat) : Double := ⟨n.toUInt64⟩

def signWeight : Nat := 0x8000000000000000

def exponentWeight : Nat := 0x10000000000000

def exponentField (x : Double) : Nat := x.bits.toNat / exponentWeight % 2048

def fraction (x : Double) : Nat := x.bits.toNat % exponentWeight

def isNegative (x : Double) : Bool := signWeight ≤ x.bits.toNat

def isNaN (x : Double) : Bool := x.exponentField == 2047 && x.fraction != 0

def isInfinite (x : Double) : Bool := x.exponentField == 2047 && x.fraction == 0

/-- A NaN whose low word is 1954 is a missing value. -/
def isNA (x : Double) : Bool := x.isNaN && x.bits.toNat % UInt32.size == 1954

def isZero (x : Double) : Bool := x.bits.toNat % signWeight == 0

def na : Double := ⟨0x7FF00000000007A2⟩

def nan : Double := ⟨0x7FF8000000000000⟩

def zero : Double := ⟨0⟩

def infinity : Double := ⟨0x7FF0000000000000⟩

def neg (x : Double) : Double :=
  if x.isNegative then ofNat (x.bits.toNat - signWeight) else ofNat (x.bits.toNat + signWeight)

def abs (x : Double) : Double := ofNat (x.bits.toNat % signWeight)

def significand (x : Double) : Nat :=
  if x.exponentField = 0 then x.fraction else exponentWeight + x.fraction

def scale (x : Double) : Int :=
  if x.exponentField = 0 then -1074 else (x.exponentField : Int) - 1075

/-- The size of a finite number is `numerator / denominator`. -/
def numerator (x : Double) : Nat := x.significand <<< x.scale.toNat

def denominator (x : Double) : Nat := 1 <<< (-x.scale).toNat

theorem denominator_pos (x : Double) : 0 < x.denominator := by
  rw [denominator, Nat.one_shiftLeft]
  exact Nat.two_pow_pos _

def truncate (x : Double) : Int :=
  let size : Int := (x.numerator / x.denominator : Nat)
  if x.isNegative then -size else size

/-- The truncated number held between two bounds, which the infinities reach. -/
def truncateWithin (low high : Int) (x : Double) : Int :=
  if x.isInfinite then (if x.isNegative then low else high)
  else max low (min high x.truncate)

/-- Equality of values: missing is missing, any other NaN is any other NaN, and numbers are
equal as numbers. -/
def identical (x y : Double) : Bool :=
  if x.isNaN || y.isNaN then x.isNaN && y.isNaN && x.isNA == y.isNA
  else x == y || x.isZero && y.isZero

theorem identical_refl (x : Double) : x.identical x = true := by
  unfold identical
  split <;> simp_all

theorem isNA_na : na.isNA = true := by decide

def roundQuotient (n d : Nat) : Nat :=
  let q := n / d
  let r := n % d
  if 2 * r < d then q else if d < 2 * r then q + 1 else if q % 2 = 0 then q else q + 1

def ratioLog2 (n d : Nat) : Int :=
  let k : Int := (n.log2 : Int) - d.log2
  if d <<< k.toNat ≤ n <<< (-k).toNat then k else k - 1

/-- The nearest number to `n / d`, with a sign; a tie goes to the even significand and what is
too large becomes infinite. -/
def ofRatio (negative : Bool) (n d : Nat) : Double :=
  if n = 0 then ofNat (if negative then signWeight else 0)
  else
    let s := max (-1074) (ratioLog2 n d - 52)
    let m := roundQuotient (n <<< (-s).toNat) (d <<< s.toNat)
    let size := min ((s + 1074).toNat * exponentWeight + m) (2047 * exponentWeight)
    ofNat (if negative then signWeight + size else size)

def ofInt (i : Int) : Double := ofRatio (i < 0) i.natAbs 1

end Double

end LazyVectors
