import LazyVectors.Double
import LazyVectors.Kind
/-!
Values: vectors of six kinds of elements with named attributes, symbols, closures, foreign
objects and `NULL`. Elements may be missing; a list has no missing elements, and `NULL` fills
its gaps.
-/

set_option autoImplicit false

namespace LazyVectors

structure Cplx where
  re : Double
  im : Double
  deriving DecidableEq, Repr

/-- A function together with the frame it was made in. Two closures are equal when both are;
the name is only shown. -/
structure Closure where
  function : Nat
  frame : Nat
  name : Option String
  deriving DecidableEq, Repr

inductive Data (β : Type) where
  | logical (xs : List (Option Bool))
  | integer (xs : List Int32)
  | double (xs : List Double)
  | complex (xs : List Cplx)
  | character (xs : List (Option String))
  | list (xs : List β)

/-- A vector: its elements, its attributes once any was written, and a flag that promises, when
set, that no element is missing. -/
structure Vec (β : Type) where
  data : Data β
  attributes : Option (List (String × β)) := none
  complete : Bool

inductive Value where
  | null
  | symbol (name : String)
  | vector (v : Vec Value)
  | closure (c : Closure)
  | foreign (object : String)

instance : Inhabited Value := ⟨.null⟩

/-- What can be an element of a vector. -/
class Element (α : Type) where
  /-- Fills a place that nothing was written to. -/
  hole : α
  isNA : α → Bool

instance {α : Type} : Element (Option α) := ⟨none, Option.isNone⟩

/-- The least integer stands for a missing one. -/
instance : Element Int32 := ⟨Int32.minValue, (· == Int32.minValue)⟩

instance : Element Double := ⟨Double.na, Double.isNA⟩

instance : Element Cplx := ⟨⟨Double.na, Double.zero⟩, fun c => c.re.isNA || c.im.isNA⟩

instance : Element Value := ⟨.null, fun _ => false⟩

namespace Data

variable {β : Type}

def kind : Data β → Kind
  | logical _ => .logical
  | integer _ => .integer
  | double _ => .double
  | complex _ => .complex
  | character _ => .character
  | list _ => .list

def length : Data β → Nat
  | logical xs => xs.length
  | integer xs => xs.length
  | double xs => xs.length
  | complex xs => xs.length
  | character xs => xs.length
  | list xs => xs.length

theorem kind_isVector (d : Data β) : d.kind.isVector = true := by cases d <;> rfl

end Data

namespace Value

def kind : Value → Kind
  | null => .null
  | symbol _ => .symbol
  | vector v => v.data.kind
  | closure _ => .closure
  | foreign _ => .foreign

def length : Value → Nat
  | null => 0
  | vector v => v.data.length
  | symbol _ | closure _ | foreign _ => 1

def isNull : Value → Bool
  | null => true
  | _ => false

def isList : Value → Bool
  | vector ⟨.list _, _, _⟩ => true
  | _ => false

def vector? : Value → Option (Vec Value)
  | vector v => some v
  | _ => none

def scalarText? : Value → Option String
  | symbol name => some name
  | vector ⟨.character [s], _, _⟩ => s
  | _ => none

def shown : Value → String
  | null => "NULL"
  | symbol name => name
  | vector v => s!"<{v.data.kind.typeName} vector of length {v.data.length}>"
  | closure c => "<closure " ++ c.name.getD "<anonymous>" ++ ">"
  | foreign _ => "<foreign object>"

end Value

end LazyVectors
