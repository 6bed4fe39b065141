import LazyVectors.Data
/-!
Vectors: making them, taking elements out of them and changing their elements, with the
completeness flag kept honest: it is set only after the elements were looked at.
-/

set_option autoImplicit false

namespace LazyVectors

namespace Vec

def ofData (d : Data Value) : Vec Value := ⟨d, none, !d.hasNA⟩

def ofList (xs : List Value) : Vec Value := ⟨.list xs, none, true⟩

def ofStrings (xs : List (Option String)) : Vec Value := ofData (.character xs)

def empty? (k : Kind) : Option (Vec Value) := (Data.holes? k 0).map (⟨·, none, true⟩)

def kind (v : Vec Value) : Kind := v.data.kind

def length (v : Vec Value) : Nat := v.data.length

def withData (v : Vec Value) (d : Data Value) : Vec Value :=
  { v with data := d, complete := !d.hasNA }

def recomputeComplete (v : Vec Value) : Vec Value := { v with complete := !v.data.hasNA }

/-- Changes the elements. The flag is cleared even if the change fails and leaves them alone. -/
def edit (v : Vec Value) (f : Data Value → Except Failure (Data Value)) :
    Vec Value × Except Failure Unit :=
  match f v.data with
  | .ok d => ({ v with data := d, complete := false }, .ok ())
  | .error e => ({ v with complete := false }, .error e)

/-- An element as a value of its own: that of a list itself, any other as a vector of one. -/
def element? (v : Vec Value) (i : Nat) : Option Value :=
  match v.data with
  | .list xs => xs[i]?
  | d => if i < d.length then some (.vector (ofData (d.select [some i]))) else none

def elements (v : Vec Value) : List Value := (List.range v.length).filterMap v.element?

end Vec

namespace Value

def logical (b : Bool) : Value := .vector (.ofData (.logical [some b]))

def string (s : String) : Value := .vector (.ofStrings [some s])

end Value

end LazyVectors
