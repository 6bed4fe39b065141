import LazyVectors.Access.Shape
import LazyVectors.Foreign
import LazyVectors.Selection.Matrix
import LazyVectors.Selection.Single
/-!
Writing elements. The container and the value take the higher kind of both, the value is used
over and over, and a vector grows to hold targets past its end; then it is no array any more and
new places have empty names if there are names at all. `NULL` deletes from a list. All other
attributes of the container stay.
-/

set_option autoImplicit false

namespace LazyVectors

inductive ReplaceStrategy where
  | foreign
  | path
  /-- `NULL` written to `NULL`. -/
  | unchanged
  /-- `NULL` written to a list. -/
  | delete
  | field
  | matrix (target : Kind)
  | element (target : Kind)
  | subset (target : Kind)
  deriving DecidableEq, Repr

structure ReplacePlan where
  shape : Shape
  strategy : ReplaceStrategy
  deriving DecidableEq, Repr

def resizeTo {α : Type} (n : Nat) (fill : α) (xs : List α) : List α :=
  xs.take n ++ List.replicate (n - xs.length) fill

def placeNames (ns : List (Option String)) : List (Nat × Option String) →
    Except Failure (List (Option String))
  | [] => .ok ns
  | (i, n) :: rest =>
    if i < ns.length then placeNames (ns.set i n) rest else .error (.internal .outOfRange)

namespace Vec

def grow [Memory] (v : Vec Value) (sel : Selection) : Except Failure (Vec Value) := do
  let longer ← v.clearDim.data.extendTo sel.length
  let grown := { v.clearDim with data := longer, complete := false }
  if v.names?.isNone && sel.appended.isEmpty then return grown
  else
    let old := v.names?.getD (List.replicate v.length (some ""))
    grown.setNames (← placeNames (resizeTo sel.length (some "") old) sel.appended)

def store [Memory] (v : Vec Value) (sel : Selection) (values : Data Value) :
    Except Failure (Vec Value) := do
  let grows := sel.growsPast v.length
  let complete := v.complete && !grows && !values.hasNA
  let v ← if grows then v.grow sel else .ok v
  let d ← v.data.assignRecycled sel.targets values
  return { v with data := d, complete := complete }

def assignable (sel : Selection) (n : Nat) : Except Failure Unit :=
  if sel.hasNA ∧ n ≠ 1 then .error (.index .missingTarget)
  else if n = 0 ∧ !sel.indices.isEmpty then .error (.index .emptyReplacement)
  else if sel.targets.length < n ∧ !sel.targets.isEmpty then .error (.index .notMultiple)
  else .ok ()

/-- Writes a value, used over and over, to the targets of a selection; the vector and the value
become of the target kind. -/
def assign [Memory] (v : Vec Value) (sel : Selection) (value : Vec Value) (target : Kind) :
    Noted (Vec Value) := do
  assignable sel value.length
  if !sel.targets.isEmpty && sel.targets.length % value.length != 0 then
    Noted.warn (.partialRecycling sel.targets.length value.length)
  let v ← v.cast target
  let values ← value.data.cast target
  v.store sel values

def delete (v : Vec Value) (ss : List Subscript) (mode : Mode) : Except Failure (Vec Value) :=
  if 1 < ss.length then .error (.index .wrongSubscripts)
  else do
    let p ← match mode, ss with
      | .field, ss => (fieldName ss).map fun n => .named [some n]
      | _, s :: _ => s.position
      | _, [] => .ok .everything
    let sel := Selection.ofPosition v .extract p
    if mode = .element ∧ 1 < sel.indices.length then .error (.index .tooManySupplied)
    else
      let doomed := ascending sel.targets
      if doomed.isEmpty then return v
      else
        let rest := { v.clearDim with data := v.data.removeIndices doomed }
        match v.names? with
        | some ns => return (← rest.setNames (Data.dropPlaces 0 doomed ns)).recomputeComplete
        | none => return rest.recomputeComplete

end Vec

namespace Value

/-- A container as a vector; `NULL` is an empty one of the target kind. -/
def containerOf (target : Kind) : Value → Except Failure (Vec Value)
  | .null =>
    match Vec.empty? target with
    | some v => .ok v
    | none => .error (.internal (.emptyVector target))
  | .vector v => .ok v
  | x => .error (.runtime (.notSubsettable x.kind))

def asContainer : Value → Except Failure (Vec Value)
  | .vector v => .ok v
  | x => .error (.runtime (.notSubsettable x.kind))

def asElements : Value → Vec Value
  | .vector v => v
  | .null => .ofList []
  | x => .ofList [x]

def assignSubset [Memory] (x : Value) (ss : List Subscript) (value : Value) (target : Kind) :
    Noted (Vec Value) := do
  let v ← x.containerOf target
  let p ← match ss with
    | s :: _ => s.position
    | [] => .ok .everything
  let sel := Selection.ofPosition v .replace p
  if value.isNull then
    if sel.indices.isEmpty then return v else throw (.index .emptyReplacement)
  else v.assign sel value.asElements target

/-- The elements that `[[` writes, and the kind they ask for: a list takes any value as it is,
and so does `NULL` when it takes a vector of several elements. -/
def singleElement (x value : Value) (target : Kind) : Except Failure (Vec Value × Kind) :=
  if target = .list then .ok (.ofList [value], .list)
  else if (value.vector?.all fun v => v.length == 1) then .ok (value.asElements, target)
  else if x.isNull then .ok (.ofList [value], .list)
  else if value.length = 0 then .error (.index .emptyReplacement)
  else .error (.index .tooManySupplied)

def assignElement [Memory] (x : Value) (s : Subscript) (value : Value) (target : Kind) :
    Noted (Vec Value) := do
  let (elements, target) ← x.singleElement value target
  let v ← x.containerOf target
  let sel ← Selection.ofSingle v s
  v.assign sel elements target

/-- A container of members by name. -/
def asMembers : Value → Noted (Vec Value)
  | .null => .ok (.ofList [])
  | .vector v =>
    if v.kind = .list then .ok v
    else do
      Noted.warn .coercedToList
      v.cast .list
  | x => .fail (.runtime (.notSubsettable x.kind))

def assignField [Memory] (x : Value) (ss : List Subscript) (value : Value) : Noted (Vec Value) := do
  let name ← fieldName ss
  let v ← x.asMembers
  v.assign (Selection.ofPosition v .replace (.named [some name])) (.ofList [value]) .list

def assignArray [Memory] (x : Value) (ss : List Subscript) (value : Value) (target : Kind) :
    Noted (Vec Value) := do
  let v ← x.asContainer
  let sel ← Selection.ofArray v (v.dim?.getD []) ss
  v.assign sel value.asElements target

end Value

variable {ω : Type} [Foreign ω]

namespace ReplacePlan

def targetKind (container value : Kind) : Kind :=
  if value = .null then (if container = .null then .logical else container)
  else
    let value := if value.isVector then value else .list
    if container = .null then value else container.promote value

def strategyOf (s : Shape) : Except Failure ReplaceStrategy :=
  let value := s.value.getD .null
  let target := targetKind s.container value
  if s.container = .foreign then .ok .foreign
  else if !s.container.isVector && s.container != .null then
    .error (.runtime (.notSubsettable s.container))
  else if s.recursive then .ok .path
  else if s.container = .null ∧ value = .null then .ok .unchanged
  else if s.container = .list ∧ value = .null then .ok .delete
  else if value = .null ∧ s.mode ≠ .subset then .error (.index .emptyReplacement)
  else if s.mode = .field then .ok .field
  else if s.mode = .element ∧ s.subscripts = [] then .error (.index .missingSubscript)
  else if s.isMatrix then .ok (.matrix target)
  else if 1 < s.subscripts.length then .error (.index .wrongDimensions)
  else .ok (if s.mode = .element then .element target else .subset target)

def build (s : Shape) : Except Failure ReplacePlan := (strategyOf s).map (⟨s, ·⟩)

def runWith [Memory] (onPath : ω → Value → Value → Value → Noted (Value × ω))
    (p : ReplacePlan) (rs : ω) (x : Value) (ss : List Subscript) (value : Value) :
    Noted (Value × ω) :=
  let native (r : Noted (Vec Value)) : Noted (Value × ω) := do return (.vector (← r), rs)
  match p.strategy with
  | .foreign =>
    match x with
    | .foreign object => do return (x, ← Foreign.write rs object ss value)
    | _ => .fail (.internal .replacementPlan)
  | .path =>
    match ss with
    | [.given path] => onPath rs x path value
    | _ => .fail (.internal .replacementPlan)
  | .unchanged => .ok (x, rs)
  | .delete => native do
    let v ← x.asContainer
    v.delete ss p.shape.mode
  | .field => native (x.assignField ss value)
  | .matrix target => native (x.assignArray ss value target)
  | .element target =>
    match ss with
    | s :: _ => native (x.assignElement s value target)
    | [] => .fail (.internal .outOfRange)
  | .subset target => native (x.assignSubset ss value target)

end ReplacePlan

def replaceStep [Memory] (rs : ω) (x : Value) (s : Subscript) (value : Value) :
    Noted (Value × ω) := do
  let p ← ReplacePlan.build (.of x [s] (some value) .element)
  p.runWith (fun _ _ _ _ => .fail (.internal .replacementPlan)) rs x [s] value

def childAt (x : Value) (s : Subscript) (level : Nat) : Except Failure Value :=
  let absent := Failure.index (.noSuchIndex level)
  match x with
  | .vector v =>
    match SingleIndex.ofSubscript v s with
    | .ok (.index i) =>
      match v.element? i with
      | some y => .ok y
      | none => .error absent
    | .ok _ => .error absent
    | .error (.index _) => .error absent
    | .error e => .error e
  | _ => .error absent

/-- Writes the last step in the innermost container, and then each changed container into the one
around it. -/
def replaceSteps [Memory] (rs : ω) (level : Nat) (x : Value) (last : Subscript)
    (value : Value) : List Subscript → Noted (Value × ω)
  | [] => replaceStep rs x last value
  | s :: rest => do
    x.checkLevel level
    let child ← childAt x s level
    let (y, rs) ← replaceSteps rs (level + 1) child last value rest
    replaceStep rs x s y

def replacePath [Memory] (rs : ω) (x path value : Value) : Noted (Value × ω) := do
  let steps ← path.steps
  match steps.getLast? with
  | none => throw (.index .missingSubscript)
  | some last => replaceSteps rs 1 x last value steps.dropLast

namespace ReplacePlan

def run [Memory] (p : ReplacePlan) (rs : ω) (x : Value) (ss : List Subscript)
    (value : Value) : Noted (Value × ω) :=
  p.runWith replacePath rs x ss value

end ReplacePlan

/-- `x[…] <- value`, `x[[…]] <- value` or `x$name <- value`: the changed container, and the foreign
objects after it. -/
def replace [Memory] (rs : ω) (x : Value) (ss : List Subscript) (value : Value)
    (mode : Mode) : Noted (Value × ω) := do
  let p ← ReplacePlan.build (.of x ss (some value) mode)
  p.run rs x ss value

end LazyVectors
