import LazyVectors.Subscript
import LazyVectors.Vec.Attributes
/-!
Positions resolved against a vector: the indices that they select. Reading takes what is out of
range for missing; writing selects places past the end, which the vector grows to hold, and
gives new names places of their own behind the last.
-/

set_option autoImplicit false

namespace LazyVectors

inductive Purpose where
  | extract | replace
  deriving DecidableEq, Repr

structure Selection where
  /-- Indices from zero; none where the position is missing. -/
  indices : List (Option Nat)
  /-- The length that holds every index. -/
  length : Nat
  /-- The names that get a new place, with their places. -/
  appended : List (Nat × Option String) := []
  /-- The selection along each extent of an array. -/
  perDim : Option (List (List (Option Nat))) := none
  deriving DecidableEq, Repr

namespace Selection

def targets (s : Selection) : List Nat := s.indices.filterMap id

def hasNA (s : Selection) : Bool := s.indices.contains none

def growsPast (s : Selection) (n : Nat) : Bool := n < s.length

end Selection

/-- The first place of a name. The empty name has none. -/
def findName (ns : List (Option String)) (name : String) : Option Nat :=
  if name.isEmpty then none else ns.findIdx? (· == some name)

def excludeAscending : List Nat → List Nat → List Nat
  | [], _ => []
  | i :: is, es =>
    let rest := es.dropWhile (· < i)
    if rest.head? = some i then excludeAscending is rest else i :: excludeAscending is rest

/-- The places that a mask, used over and over, selects among the first `max n |mask|`. Beyond
a vector of length `n` there is something to write to but nothing to read. -/
def maskPlaces (n : Nat) (purpose : Purpose) (mask : List (Option Bool)) : List (Option Nat) :=
  (List.range (if mask.isEmpty then 0 else max n mask.length)).filterMap fun i =>
    match (mask[i % mask.length]?).join with
    | some false => none
    | some true => some (if i < n ∨ purpose = .replace then some i else none)
    | none => some none

namespace Selection

/-- Adds a name to a selection: its first place among the names, or one behind the end if there
is something to write. A new name that was given before keeps its place. -/
def addName (n : Nat) (names : List (Option String)) (purpose : Purpose) (s : Selection)
    (name : Option String) : Selection :=
  match name.bind (findName names), purpose with
  | some i, _ => { s with indices := s.indices ++ [some i] }
  | none, .extract => { s with indices := s.indices ++ [none] }
  | none, .replace =>
    match s.appended.find? fun a => a.2 == name && !(name.getD "").isEmpty with
    | some (i, _) => { s with indices := s.indices ++ [some i] }
    | none =>
      let i := n + s.appended.length
      { s with indices := s.indices ++ [some i], appended := s.appended ++ [(i, name)] }

def places (n : Nat) (names : List (Option String)) (purpose : Purpose) : Position → Selection
  | .everything => ⟨(List.range n).map some, n, [], none⟩
  | .nothing => ⟨[], n, [], none⟩
  | .indices is =>
    ⟨is.map fun i => if purpose = .extract ∧ !i.all (· < n) then none else i, n, [], none⟩
  | .excluding es => ⟨(excludeAscending (List.range n) es).map some, n, [], none⟩
  | .mask bs => ⟨maskPlaces n purpose bs, n, [], none⟩
  | .named ns => ns.foldl (addName n names purpose) ⟨[], n, [], none⟩

def reach (n : Nat) (targets : List Nat) : Nat := targets.foldl (fun m i => max m (i + 1)) n

def resolve (n : Nat) (names : Option (List (Option String))) (purpose : Purpose)
    (p : Position) : Selection :=
  let s := places n (names.getD []) purpose p
  match purpose with
  | .extract => s
  | .replace => { s with length := reach n s.targets }

def ofPosition (v : Vec Value) (purpose : Purpose) (p : Position) : Selection :=
  resolve v.length v.names? purpose p

end Selection

end LazyVectors
