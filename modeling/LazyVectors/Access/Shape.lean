import LazyVectors.Selection
set_option autoImplicit false

namespace LazyVectors

/-- How elements are addressed: several by `[`, one by `[[`, one by its name by `$`. -/
inductive Mode where
  | subset | element | field
  deriving DecidableEq, Repr

structure Shape where
  mode : Mode
  container : Kind
  /-- The kind of the value to write, if there is one. -/
  value : Option Kind
  subscripts : List SubscriptKind
  /-- The number of extents of the container, none for what is no array. -/
  dims : Nat
  /-- Whether one subscript of `[[` leads through several levels of a list. -/
  recursive : Bool
  deriving DecidableEq, Repr

namespace Shape

/-- Whether a call of `[[` leads through several levels of a list. -/
def isPath (x : Value) (ss : List Subscript) (mode : Mode) : Bool :=
  mode == .element && x.isList &&
    match ss with
    | [s] => s.length?.any (1 < ·)
    | _ => false

def of (x : Value) (ss : List Subscript) (value : Option Value) (mode : Mode) : Shape where
  mode := mode
  container := x.kind
  value := value.map Value.kind
  subscripts := ss.map Subscript.kind
  dims := ((x.vector?.bind Vec.dim?).map List.length).getD 0
  recursive := isPath x ss mode

def isMatrix (s : Shape) : Bool := 2 ≤ s.dims && s.subscripts.length == s.dims

theorem isMatrix_of_one {s : Shape} (h : s.subscripts.length = 1) : s.isMatrix = false := by
  have hdims : ¬(2 ≤ s.dims ∧ 1 = s.dims) := by omega
  simpa [isMatrix, h] using hdims

end Shape

def Value.steps : Value → Except Failure (List Subscript)
  | .vector v =>
    if v.kind.isAtomic then .ok (v.elements.map .given)
    else .error (.index (.invalidSubscript v.kind))
  | x => .error (.index (.invalidSubscript x.kind))

def Value.checkLevel (x : Value) (level : Nat) : Except Failure Unit :=
  if x.isList then .ok ()
  else if x.isNull then .error (.index .outOfBounds)
  else .error (.index (.notRecursive level))

def fieldName : List Subscript → Except Failure String
  | [.given x] =>
    match x.scalarText? with
    | some name => .ok name
    | none => .error (.runtime .invalidField)
  | _ => .error (.runtime .invalidField)

end LazyVectors
