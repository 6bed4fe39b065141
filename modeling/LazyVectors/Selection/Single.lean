import LazyVectors.Selection
set_option autoImplicit false

namespace LazyVectors

inductive SingleIndex where
  | index (i : Nat)
  | missing
  | notFound
  deriving DecidableEq, Repr

namespace SingleIndex

def ofIndices : List (Option Nat) → Except Failure SingleIndex
  | [] => .error (.index .selectsNone)
  | [some i] => .ok (.index i)
  | [none] => .ok .missing
  | _ => .error (.index .selectsMany)

def ofPosition (v : Vec Value) : Position → Except Failure SingleIndex
  | .everything => .error (.index (.invalidSubscript .symbol))
  | .named [none] => .ok .missing
  | .named [some name] =>
    match v.names?.bind (findName · name) with
    | some i => .ok (.index i)
    | none => .ok .notFound
  | .indices [none] => .ok .missing
  | .indices [some i] => if i < v.length then .ok (.index i) else .error (.index .outOfBounds)
  | p => ofIndices (Selection.ofPosition v .extract p).indices

def ofSubscript (v : Vec Value) (s : Subscript) : Except Failure SingleIndex := do
  ofPosition v (← s.position)

end SingleIndex

namespace Selection

/-- Resolves a subscript of `[[` for writing: one target, which may lie past the end. -/
def ofSingle (v : Vec Value) (s : Subscript) : Except Failure Selection := do
  let p ← s.position
  if p = .everything then .error (.index .missingSubscript)
  else
    let sel := ofPosition v .replace p
    match sel.indices with
    | [some _] => .ok sel
    | [] | [none] => .error (.index .missingSubscript)
    | _ => .error (.index .tooManySupplied)

end Selection

end LazyVectors
