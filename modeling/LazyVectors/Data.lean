import LazyVectors.Noted
import LazyVectors.Value
set_option autoImplicit false

namespace LazyVectors

def maxLength : Nat := 4503599627370496

/-- The memory that vectors grow in: whether it has room for one of a kind and a length. -/
class Memory where
  grants : Kind → Nat → Bool

@[reducible] def Memory.unbounded : Memory := ⟨fun _ _ => true⟩

namespace Data

def mapEach (f : {α : Type} → [Element α] → List α → List α) : Data Value → Data Value
  | logical xs => logical (f xs)
  | integer xs => integer (f xs)
  | double xs => double (f xs)
  | complex xs => complex (f xs)
  | character xs => character (f xs)
  | list xs => list (f xs)

@[simp] theorem kind_mapEach (f : {α : Type} → [Element α] → List α → List α)
    (d : Data Value) : (d.mapEach f).kind = d.kind := by cases d <;> rfl

def missing : Data Value → List Bool
  | logical xs => xs.map Element.isNA
  | integer xs => xs.map Element.isNA
  | double xs => xs.map Element.isNA
  | complex xs => xs.map Element.isNA
  | character xs => xs.map Element.isNA
  | list xs => xs.map Element.isNA

@[simp] theorem length_missing (d : Data Value) : d.missing.length = d.length := by
  cases d <;> simp [missing, length]

def hasNA (d : Data Value) : Bool := d.missing.contains true

def isNAAt (d : Data Value) (i : Nat) : Bool := d.missing[i]?.getD false

/-- Elements that nothing was written to; only the vector kinds have any. -/
def holes? (k : Kind) (n : Nat) : Option (Data Value) :=
  match k with
  | .logical => some (logical (List.replicate n Element.hole))
  | .integer => some (integer (List.replicate n Element.hole))
  | .double => some (double (List.replicate n Element.hole))
  | .complex => some (complex (List.replicate n Element.hole))
  | .character => some (character (List.replicate n Element.hole))
  | .list => some (list (List.replicate n Element.hole))
  | .null | .symbol | .closure | .foreign => none

theorem holes?_isSome (k : Kind) (n : Nat) : (holes? k n).isSome = k.isVector := by
  cases k <;> rfl

/-- The element at an index, or a hole without one. -/
def pick {α : Type} [Element α] (xs : List α) (i : Option Nat) : α :=
  (i.bind (xs[·]?)).getD Element.hole

/-- Gathers elements; no index, or one past the end, gives a hole. -/
def select (d : Data Value) (indices : List (Option Nat)) : Data Value :=
  d.mapEach fun xs => indices.map (pick xs)

@[simp] theorem kind_select (d : Data Value) (indices : List (Option Nat)) :
    (d.select indices).kind = d.kind := kind_mapEach _ d

@[simp] theorem length_select (d : Data Value) (indices : List (Option Nat)) :
    (d.select indices).length = indices.length := by
  cases d <;> simp [select, mapEach, length]

/-- Grows to a length with holes, if there is room; never shrinks. -/
def extendTo [Memory] (d : Data Value) (n : Nat) : Except Failure (Data Value) :=
  if maxLength < n then .error (.index .tooLarge)
  else if d.length < n ∧ Memory.grants d.kind n = false then .error (.runtime (.allocation n))
  else .ok (d.mapEach fun xs => xs ++ List.replicate (n - xs.length) Element.hole)

def dropPlaces {α : Type} (i : Nat) : List Nat → List α → List α
  | _, [] => []
  | [], xs => xs
  | p :: ps, x :: xs =>
    if p = i then dropPlaces (i + 1) ps xs else x :: dropPlaces (i + 1) (p :: ps) xs

def removeIndices (d : Data Value) (places : List Nat) : Data Value :=
  d.mapEach fun xs => dropPlaces 0 places xs

/-- Overwrites the elements at the targets with the sources, used over and over from the
first on, the `k`-th target taking source number `k` modulo their count. -/
def overwrite {α : Type} (sources : List α) (xs : List α) (k : Nat) : List Nat → List α
  | [] => xs
  | t :: ts =>
    match sources[k % sources.length]? with
    | some x => overwrite sources (xs.set t x) (k + 1) ts
    | none => xs

@[simp] theorem length_overwrite {α : Type} (sources xs : List α) (k : Nat) (ts : List Nat) :
    (overwrite sources xs k ts).length = xs.length := by
  induction ts generalizing xs k with
  | nil => rfl
  | cons t ts ih =>
    unfold overwrite
    split <;> simp [ih]

def assignElements {α : Type} (xs : List α) (targets : List Nat) (sources : List α) :
    Except Failure (List α) :=
  if sources.isEmpty || targets.all (· < xs.length) then .ok (overwrite sources xs 0 targets)
  else .error (.internal .outOfRange)

def assignRecycled (d : Data Value) (targets : List Nat) (sources : Data Value) :
    Except Failure (Data Value) :=
  match d, sources with
  | logical xs, logical ss => (assignElements xs targets ss).map logical
  | integer xs, integer ss => (assignElements xs targets ss).map integer
  | double xs, double ss => (assignElements xs targets ss).map double
  | complex xs, complex ss => (assignElements xs targets ss).map complex
  | character xs, character ss => (assignElements xs targets ss).map character
  | list xs, list ss => (assignElements xs targets ss).map list
  | d, sources => .error (.internal (.storage sources.kind d.kind))

def append? : Data Value → Data Value → Option (Data Value)
  | logical xs, logical ys => some (logical (xs ++ ys))
  | integer xs, integer ys => some (integer (xs ++ ys))
  | double xs, double ys => some (double (xs ++ ys))
  | complex xs, complex ys => some (complex (xs ++ ys))
  | character xs, character ys => some (character (xs ++ ys))
  | list xs, list ys => some (list (xs ++ ys))
  | _, _ => none

end Data

end LazyVectors
