import LazyVectors.Double.Reading
import LazyVectors.Double.Text
import LazyVectors.Vec
/-!
Casts between the kinds of vectors. A missing element stays missing. An element that has no
counterpart becomes missing too, and a cast that meets such a loss says so, once.
-/

set_option autoImplicit false

namespace LazyVectors

structure Converted (α : Type) where
  value : α
  lost : Bool
  deriving DecidableEq

namespace Converted

def kept {α : Type} (a : α) : Converted α := ⟨a, false⟩

def hole {α : Type} [Element α] : Converted α := ⟨Element.hole, false⟩

def loss {α : Type} [Element α] : Converted α := ⟨Element.hole, true⟩

end Converted

def Double.toLogical (x : Double) : Option Bool := if x.isNaN then none else some !x.isZero

/-- Truncates toward zero; numbers beyond 32 bits are lost, and so, but without notice, is the
least one, whose place stands for a missing integer. -/
def Double.toInteger (x : Double) : Converted Int32 :=
  if x.isNaN then .hole
  else
    let i := x.truncateWithin (Int32.minValue.toInt - 1) (Int32.maxValue.toInt + 1)
    if i < Int32.minValue.toInt ∨ Int32.maxValue.toInt < i then .loss else .kept (Int32.ofInt i)

def Double.ofLogical : Option Bool → Double
  | none => na
  | some b => ofInt (if b then 1 else 0)

def Double.ofInteger (i : Int32) : Double := if Element.isNA i then na else ofInt i.toInt

/-- A complex number without imaginary part; a missing one is missing as a whole. -/
def Cplx.ofDouble (x : Double) : Cplx := if x.isNA then Element.hole else ⟨x, Double.zero⟩

def Cplx.toDouble (c : Cplx) : Double := if Element.isNA c then Double.na else c.re

def Cplx.toLogical (c : Cplx) : Option Bool :=
  if c.re.isNaN || c.im.isNaN then none else some !(c.re.isZero && c.im.isZero)

def Cplx.text? (c : Cplx) : Option String :=
  if Element.isNA c then none
  else do
    let re ← c.re.text?
    let im ← c.im.abs.text?
    some (re ++ (if c.im.isNegative && !c.im.isNaN then "-" else "+") ++ im ++ "i")

def integerText? (i : Int32) : Option String :=
  if Element.isNA i then none else some (toString i.toInt)

def logicalText (b : Bool) : String := if b then "TRUE" else "FALSE"

def readLogical? : String → Option Bool
  | "TRUE" | "true" | "True" | "T" => some true
  | "FALSE" | "false" | "False" | "F" => some false
  | _ => none

def textToLogical : Option String → Converted (Option Bool)
  | none => .hole
  | some s =>
    match readLogical? s with
    | some b => .kept (some b)
    | none => if s = "NA" then .hole else .loss

def textToInteger : Option String → Converted Int32
  | none => .hole
  | some s =>
    match Double.read? s with
    | some x => x.toInteger
    | none => .loss

def textToDouble : Option String → Converted Double
  | none => .hole
  | some s =>
    match Double.read? s with
    | some x => .kept x
    | none => .loss

namespace Data

def toLogical : Data Value → List (Converted (Option Bool))
  | logical xs => xs.map .kept
  | integer xs => xs.map fun i => .kept (if Element.isNA i then none else some (i != 0))
  | double xs => xs.map fun x => .kept x.toLogical
  | complex xs => xs.map fun c => .kept c.toLogical
  | character xs => xs.map textToLogical
  | list _ => []

def toInteger : Data Value → List (Converted Int32)
  | logical xs => xs.map fun b => .kept (match b with
    | none => Element.hole
    | some b => if b then 1 else 0)
  | integer xs => xs.map .kept
  | double xs => xs.map Double.toInteger
  | complex xs => xs.map fun c => if Element.isNA c then .hole else c.re.toInteger
  | character xs => xs.map textToInteger
  | list _ => []

def toDouble : Data Value → List (Converted Double)
  | logical xs => xs.map fun b => .kept (.ofLogical b)
  | integer xs => xs.map fun i => .kept (.ofInteger i)
  | double xs => xs.map .kept
  | complex xs => xs.map fun c => .kept c.toDouble
  | character xs => xs.map textToDouble
  | list _ => []

def toComplex : Data Value → List (Converted Cplx)
  | complex xs => xs.map .kept
  | d => d.toDouble.map fun x => ⟨.ofDouble x.value, x.lost⟩

def toText : Data Value → List (Option String)
  | logical xs => xs.map (·.map logicalText)
  | integer xs => xs.map integerText?
  | double xs => xs.map Double.text?
  | complex xs => xs.map Cplx.text?
  | character xs => xs
  | list _ => []

/-- Keeps converted elements, and says once if any was lost. -/
def gather {α : Type} (make : List α → Data Value) (source target : Kind)
    (xs : List (Converted α)) : Noted (Data Value) :=
  ⟨if xs.any Converted.lost then [.introducedNA source target] else [],
    .ok (make (xs.map Converted.value))⟩

def castAtomic (d : Data Value) (k : Kind) : Noted (Data Value) :=
  if d.kind = k then .ok d
  else
    match k with
    | .logical => gather logical d.kind k d.toLogical
    | .integer => gather integer d.kind k d.toInteger
    | .double => gather double d.kind k d.toDouble
    | .complex => gather complex d.kind k d.toComplex
    | .character => .ok (character d.toText)
    | .list => .ok (list (Vec.ofData d).elements)
    | .null | .symbol | .closure | .foreign => .fail (.coercion (.kinds d.kind k))

def castItem (k : Kind) : Value → Noted (Data Value)
  | .vector v =>
    if v.length = 1 ∧ v.kind.isAtomic then castAtomic v.data k
    else .fail (.coercion (.listItem k))
  | _ => .fail (.coercion (.listItem k))

/-- Casts the items of a list one after the other and puts them behind `done`. -/
def castItems (k : Kind) (done : Data Value) : List Value → Noted (Data Value)
  | [] => .ok done
  | x :: xs => do
    let d ← castItem k x
    match done.append? d with
    | some done => castItems k done xs
    | none => .fail (.internal (.storage d.kind k))

def cast (d : Data Value) (k : Kind) : Noted (Data Value) :=
  match d with
  | list xs =>
    if k = .list then .ok d
    else
      match holes? k 0 with
      | some done => castItems k done xs
      | none => .fail (.coercion (.kinds .list k))
  | d => d.castAtomic k

end Data

def Vec.cast (v : Vec Value) (k : Kind) : Noted (Vec Value) :=
  if v.kind = k then .ok v
  else do
    let d ← v.data.cast k
    return v.withData d

/-- Casts any value to a vector. `NULL` becomes an empty one, and a symbol its name. -/
def Value.cast (x : Value) (k : Kind) : Noted (Vec Value) :=
  match x, k with
  | .null, k =>
    match Vec.empty? k with
    | some v => .ok v
    | none => .fail (.coercion (.kinds .null k))
  | .vector v, k => v.cast k
  | .symbol name, .character => .ok (.ofStrings [some name])
  | x, .list => .ok (.ofList [x])
  | x, k => .fail (.coercion (.kinds x.kind k))

end LazyVectors
