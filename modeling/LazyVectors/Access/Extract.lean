import LazyVectors.Access.Shape
import LazyVectors.Foreign
import LazyVectors.Selection.Matrix
import LazyVectors.Selection.Single
/-!
Reading elements. `[` keeps the kind of a vector and its names and drops all other attributes,
except that an array stays one unless its extents of one are dropped. `[[` gives one element,
and `$` the member of a list with a name. The way to read depends on the shape of the access
alone and is settled in a plan before the container is looked at.
-/

set_option autoImplicit false

namespace LazyVectors

inductive ExtractStrategy where
  | foreign | null | subset | matrix | element | path | field
  deriving DecidableEq, Repr

structure ExtractPlan where
  shape : Shape
  strategy : ExtractStrategy
  deriving DecidableEq, Repr

namespace Vec

def pickNames (ns : List (Option String)) (is : List (Option Nat)) :
    Except Failure (List (Option String)) :=
  is.mapM fun i =>
    match i with
    | none => .ok none
    | some i =>
      match ns[i]? with
      | some n => .ok n
      | none => .error (.internal .outOfRange)

def subset (v : Vec Value) : List Subscript → Except Failure (Vec Value)
  | [] | .omitted :: _ => .ok v
  | .given x :: _ => do
    let p ← (Subscript.given x).position
    let is := (Selection.ofPosition v .extract p).indices
    let picked := ofData (v.data.select is)
    match v.names? with
    | none => return picked
    | some ns => picked.setNames (← pickNames ns is)

def pickDimnames : List (Option (List (Option String))) → List (List (Option Nat)) →
    Except Failure (List (Option (List (Option String))))
  | _, [] => .ok []
  | ls, is :: rest => do
    let picked ← match ls.head?.join with
      | none => .ok none
      | some ns => (pickNames ns is).map some
    return picked :: (← pickDimnames ls.tail rest)

def subsetArray (v : Vec Value) (ss : List Subscript) (drop : Bool) :
    Except Failure (Vec Value) := do
  let sel ← Selection.ofArray v (v.dim?.getD []) ss
  let perDim := sel.perDim.getD []
  let picked := ofData (v.data.select sel.indices)
  let labels ← pickDimnames (v.dimnames?.getD []) perDim
  let extents := (perDim.map List.length).zip labels
  match extents.filter fun e => !drop || e.1 != 1 with
  | [] => return picked
  | [(_, none)] => return picked
  | [(_, some ns)] => picked.setNames ns
  | kept => do
    let picked ← picked.setDim (kept.map (·.1))
    if labels.any Option.isSome then picked.setDimnames (kept.map (·.2)) else return picked

def subscript (v : Vec Value) (s : Subscript) : Except Failure Value := do
  match ← SingleIndex.ofSubscript v s with
  | .index i =>
    match v.element? i with
    | some x => return x
    | none => .error (.index .outOfBounds)
  | .missing =>
    if v.kind = .list then return .null else return .vector (ofData (v.data.select [none]))
  | .notFound => if v.kind = .list then return .null else .error (.index .outOfBounds)

def cell (v : Vec Value) (ss : List Subscript) : Except Failure Value := do
  let picked ← v.subsetArray ss true
  if picked.length = 1 then
    match picked.element? 0 with
    | some x => return x
    | none => .error (.index .outOfBounds)
  else .error (.index .selectsMany)

/-- `x$name`: the member with a name, or `NULL`. -/
def field (v : Vec Value) (ss : List Subscript) : Except Failure Value := do
  let name ← fieldName ss
  return ((findName (v.names?.getD []) name).bind v.element?).getD .null

end Vec

variable {ω : Type} [Foreign ω]

namespace ExtractPlan

def strategyOf (s : Shape) : Except Failure ExtractStrategy :=
  if s.container = .foreign then .ok .foreign
  else if s.container = .null then .ok .null
  else if !s.container.isVector then .error (.runtime (.notSubsettable s.container))
  else if s.mode = .field then
    if s.container = .list then .ok .field else .error (.runtime .fieldOfAtomic)
  else if s.mode = .element ∧ s.subscripts = [] then
    .error (.index (.invalidSubscript .symbol))
  else if s.mode = .element ∧ s.recursive then .ok .path
  else if s.isMatrix then .ok .matrix
  else if 1 < s.subscripts.length then .error (.index .wrongDimensions)
  else .ok (if s.mode = .element then .element else .subset)

def build (s : Shape) : Except Failure ExtractPlan := (strategyOf s).map (⟨s, ·⟩)

def runVector (onPath : Vec Value → Value → Except Failure Value) (p : ExtractPlan)
    (v : Vec Value) (ss : List Subscript) (drop : Bool) : Except Failure Value :=
  match p.strategy with
  | .foreign | .null => .error (.internal .extractionPlan)
  | .subset => (v.subset ss).map .vector
  | .matrix => if p.shape.mode = .element then v.cell ss else (v.subsetArray ss drop).map .vector
  | .element =>
    match ss with
    | s :: _ => v.subscript s
    | [] => .error (.internal .outOfRange)
  | .path =>
    match ss with
    | .given path :: _ => onPath v path
    | .omitted :: _ => .error (.index (.invalidSubscript .symbol))
    | [] => .error (.internal .outOfRange)
  | .field => v.field ss

/-- Carries out a plan. What is no vector is read in its own way, whatever the plan. -/
def runWith (onPath : Vec Value → Value → Except Failure Value)
    (p : ExtractPlan) (rs : ω) (x : Value) (ss : List Subscript) (drop : Bool) :
    Except Failure Value :=
  match x with
  | .foreign object => Foreign.read rs object ss
  | .null => .ok .null
  | .vector v => p.runVector onPath v ss drop
  | x => .error (.runtime (.notSubsettable x.kind))

end ExtractPlan

def extractStep (rs : ω) (x : Value) (s : Subscript) : Except Failure Value := do
  let p ← ExtractPlan.build (.of x [s] none .element)
  p.runWith (fun _ _ => .error (.internal .extractionPlan)) rs x [s] true

/-- Reads through the levels of a list, the first being number `level`. All but the last step
have to start at a list. -/
def extractSteps (rs : ω) (level : Nat) (x : Value) : List Subscript → Except Failure Value
  | [] => .ok x
  | [s] => extractStep rs x s
  | s :: t :: rest => do
    x.checkLevel level
    extractSteps rs (level + 1) (← extractStep rs x s) (t :: rest)

def extractPath (rs : ω) (v : Vec Value) (path : Value) : Except Failure Value := do
  extractSteps rs 1 (.vector v) (← path.steps)

namespace ExtractPlan

def run (p : ExtractPlan) (rs : ω) (x : Value) (ss : List Subscript) (drop : Bool) :
    Except Failure Value :=
  p.runWith (extractPath rs) rs x ss drop

end ExtractPlan

def extract (rs : ω) (x : Value) (ss : List Subscript) (mode : Mode) (drop : Bool) :
    Except Failure Value := do
  let p ← ExtractPlan.build (.of x ss none mode)
  p.run rs x ss drop

end LazyVectors
