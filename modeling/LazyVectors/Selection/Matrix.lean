import LazyVectors.Selection
/-!
Selections in arrays: one position for each extent. The first extent varies fastest, so the
place with coordinates `i₁, i₂, …` has the offset `i₁ + d₁ · (i₂ + d₂ · …)`.
-/

set_option autoImplicit false

namespace LazyVectors.Selection

/-- The offsets of all combinations of coordinates, the first coordinate varying fastest; there
is none where a coordinate is missing. -/
def offsets : List Nat → List (List (Option Nat)) → List (Option Nat)
  | d :: ds, is :: rest =>
    (offsets ds rest).flatMap fun o => is.map fun i => do some ((← i) + d * (← o))
  | _, _ => [some 0]

def alongExtent (extent : Nat) (labels : Option (List (Option String))) (s : Subscript) :
    Except Failure (List (Option Nat)) := do
  let p ← s.position
  let known := match p with
    | .named ns => ns.all fun n => (n.bind (findName (labels.getD []))).isSome
    | _ => true
  if known then
    let sel := resolve extent labels .replace p
    if sel.length > extent then .error (.index .outOfBounds) else .ok sel.indices
  else .error (.index .outOfBounds)

def alongExtents : List Nat → List (Option (List (Option String))) → List Subscript →
    Except Failure (List (List (Option Nat)))
  | d :: ds, labels, s :: ss => do
    let is ← alongExtent d (labels.head?.join) s
    let rest ← alongExtents ds labels.tail ss
    return is :: rest
  | _, _, _ => .ok []

def ofArray (v : Vec Value) (dims : List Nat) (ss : List Subscript) : Except Failure Selection :=
  if ss.length ≠ dims.length then .error (.index .wrongDimensions)
  else do
    let perDim ← alongExtents dims (v.dimnames?.getD []) ss
    return ⟨offsets dims perDim, v.length, [], some perDim⟩

/-- Resolves the subscripts of one call of `[`: along the extents of an array if there is one for
each of them, against the whole vector otherwise. -/
def ofSubscripts (v : Vec Value) (ss : List Subscript) (purpose : Purpose) :
    Except Failure Selection :=
  let dims := v.dim?.getD []
  if 2 ≤ dims.length ∧ ss.length = dims.length then ofArray v dims ss
  else
    match ss with
    | [] => .ok (ofPosition v purpose .everything)
    | [s] => s.position.map (ofPosition v purpose)
    | _ => .error (.index .wrongDimensions)

end LazyVectors.Selection
