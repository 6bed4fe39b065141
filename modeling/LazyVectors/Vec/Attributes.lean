import LazyVectors.Cast
import LazyVectors.Named
/-!
Attributes of vectors. They are kept in the order in which they were first written. Four names
have a meaning: `names` labels the elements, `dim` gives the extents of an array, `dimnames`
labels the places along each extent, and `class` makes the vector an object. The setters of the
first three refuse what does not fit the vector.
-/

set_option autoImplicit false

namespace LazyVectors

abbrev Attributes := Named Value

/-- Writing `NULL` erases. -/
def Attributes.put (as : Attributes) (name : String) (x : Value) : Attributes :=
  if x.isNull then Named.erase as name else Named.put as name x

/-- The number of places in an array, if every step of the product fits 64 bits. -/
def extentProduct (dims : List Nat) : Option Nat :=
  dims.foldlM (fun p d => if p * d < UInt64.size then some (p * d) else none) 1

namespace Vec

def attribute? (v : Vec Value) (name : String) : Option Value :=
  v.attributes.bind (·.lookup name)

def initAttributes (v : Vec Value) : Vec Value :=
  { v with attributes := some (v.attributes.getD []) }

def putAttribute (v : Vec Value) (name : String) (x : Value) : Vec Value :=
  { v with attributes := some (Attributes.put (v.attributes.getD []) name x) }

/-- Removes an attribute; with the last one the room for attributes goes, too. -/
def removeAttribute (v : Vec Value) (name : String) : Vec Value :=
  match v.attributes with
  | none => v
  | some as =>
    let rest := Named.erase as name
    { v with attributes := if rest.isEmpty then none else some rest }

theorem attribute?_putAttribute (v : Vec Value) (name other : String) (x : Value)
    (hx : x.isNull = false) : (v.putAttribute name x).attribute? other =
      if other = name then some x else v.attribute? other := by
  simp only [attribute?, putAttribute, Attributes.put, hx, Option.bind_some, Bool.false_eq_true,
    if_false, Named.lookup_put]
  cases v.attributes <;> rfl

theorem attribute?_putAttribute_self (v : Vec Value) (name : String) {x : Value}
    (hx : x.isNull = false) : (v.putAttribute name x).attribute? name = some x := by
  rw [attribute?_putAttribute v name name x hx, if_pos rfl]

theorem attribute?_removeAttribute_of_ne (v : Vec Value) {name other : String}
    (h : other ≠ name) : (v.removeAttribute name).attribute? other = v.attribute? other := by
  unfold removeAttribute
  cases has : v.attributes with
  | none => rfl
  | some as =>
    have hlookup := Named.lookup_erase_of_ne as h
    simp only [attribute?, has, Option.bind_some]
    split
    · rename_i hempty
      rw [List.isEmpty_iff.1 hempty] at hlookup
      exact hlookup
    · exact hlookup

def names? (v : Vec Value) : Option (List (Option String)) :=
  match v.attribute? "names" with
  | some (.vector ⟨.character ns, _, _⟩) => some ns
  | _ => none

def setNames (v : Vec Value) (ns : List (Option String)) : Except Failure (Vec Value) :=
  if v.length < ns.length then .error (.index (.tooManyNames ns.length v.length))
  else
    let padded := ns ++ List.replicate (v.length - ns.length) none
    .ok (v.putAttribute "names" (.vector (.ofStrings padded)))

/-- The extents of an array; an extent that is negative or missing counts as none. -/
def dim? (v : Vec Value) : Option (List Nat) :=
  match v.attribute? "dim" with
  | some (.vector ⟨.integer ds, _, _⟩) => some (ds.map (·.toInt.toNat))
  | _ => none

def setDim (v : Vec Value) (dims : List Nat) : Except Failure (Vec Value) :=
  match extentProduct dims with
  | none => .error (.index .dimTooLarge)
  | some p =>
    if p = v.length then
      .ok (v.putAttribute "dim" (.vector (.ofData (.integer (dims.map Int32.ofNat)))))
    else .error (.index (.dimMismatch p v.length))

def clearDim (v : Vec Value) : Vec Value := (v.removeAttribute "dim").removeAttribute "dimnames"

def extentNames? : Value → Option (List (Option String))
  | .vector ⟨.character ns, _, _⟩ => some ns
  | _ => none

def dimnames? (v : Vec Value) : Option (List (Option (List (Option String)))) :=
  match v.attribute? "dimnames" with
  | some (.vector ⟨.list xs, _, _⟩) => some (xs.map extentNames?)
  | _ => none

def extentLabels (k : Nat) : List Nat → List (Option (List (Option String))) →
    Except Failure (List Value)
  | _, [] => .ok []
  | dims, none :: rest => (extentLabels (k + 1) dims.tail rest).map (.null :: ·)
  | dims, some ns :: rest =>
    if dims.head? = some ns.length then
      (extentLabels (k + 1) dims.tail rest).map (.vector (.ofStrings ns) :: ·)
    else .error (.index (.dimnamesExtent k))

def setDimnames (v : Vec Value) (ls : List (Option (List (Option String)))) :
    Except Failure (Vec Value) := do
  match v.dim? with
  | none => .error (.index .notArray)
  | some dims =>
    if ls.length ≠ dims.length then .error (.index (.dimnamesCount ls.length dims.length))
    else
      let xs ← extentLabels 1 dims ls
      return v.putAttribute "dimnames" (.vector (.ofList xs))

def namesOf : Value → Except Failure (List (Option String))
  | .vector ⟨.list _, _, _⟩ => .error (.coercion .invalidNames)
  | .vector v => .ok v.data.toText
  | _ => .error (.coercion .invalidNames)

/-- An extent given as a number: cut off toward zero, and at most what 64 bits hold. -/
def extentOf (x : Double) : Except Failure Nat :=
  if x.isNaN || x.isNegative && !x.isZero then .error (.index .invalidExtent)
  else .ok (x.truncateWithin 0 (UInt64.size - 1)).toNat

def dimOf (x : Value) : Except Failure (List Nat) := do
  let ds ← match x with
    | .vector ⟨.integer ds, _, _⟩ => .ok (ds.map (Double.ofInt ·.toInt))
    | .vector ⟨.double ds, _, _⟩ => .ok ds
    | _ => .error (.index .invalidDim)
  if ds.isEmpty then .error (.index .emptyDim) else ds.mapM extentOf

/-- Sets an attribute by name, through its own setter where `names` or `dim` is meant; `NULL`
removes it. -/
def setAttribute (v : Vec Value) (name : String) (x : Value) : Except Failure (Vec Value) :=
  if x.isNull then .ok (v.removeAttribute name)
  else if name = "names" then namesOf x >>= v.setNames
  else if name = "dim" then dimOf x >>= v.setDim
  else .ok (v.putAttribute name x)

def isObject (v : Vec Value) : Bool := (v.attribute? "class").isSome

def setClass (v : Vec Value) (classes : List String) : Vec Value :=
  v.putAttribute "class" (.vector (.ofStrings (classes.map some)))

def implicitClasses (v : Vec Value) : List String :=
  (match v.dim? with
    | some [_, _] => ["matrix", "array"]
    | some _ => ["array"]
    | none => []) ++
  (match v.kind with
    | .integer => ["integer", "numeric"]
    | k => [k.implicitClass])

def classes (v : Vec Value) : List String :=
  match v.attribute? "class" with
  | some (.vector ⟨.character cs, _, _⟩) => cs.filterMap id
  | _ => v.implicitClasses

end Vec

def Value.classes : Value → List String
  | .vector v => v.classes
  | x => [x.kind.implicitClass]

end LazyVectors
