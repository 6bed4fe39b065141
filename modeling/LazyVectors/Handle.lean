import LazyVectors.Value
/-!
What keeps frames alive. A frame, a promise and a function are each held by their handles, and a
value leads to those that stand in it.
-/

set_option autoImplicit false

namespace LazyVectors

abbrev FrameId := Nat

abbrev PromiseId := Nat

abbrev FunctionId := Nat

inductive Handle where
  | frame (f : FrameId)
  | promise (p : PromiseId)
  | function (f : FunctionId)
  deriving DecidableEq, Repr

mutual

/-- A closure leads to its frame and to its function. -/
def Value.handles : Value → List Handle
  | .null => []
  | .symbol _ => []
  | .vector v => Vec.handles v
  | .closure c => [.frame c.frame, .function c.function]
  | .foreign _ => []
termination_by structural x => x

def Vec.handles : Vec Value → List Handle
  | ⟨d, as, _⟩ => Data.handles d ++ Vec.attributeHandles as
termination_by structural x => x

def Data.handles : Data Value → List Handle
  | .logical _ => []
  | .integer _ => []
  | .double _ => []
  | .complex _ => []
  | .character _ => []
  | .list xs => Value.handlesAll xs
termination_by structural x => x

def Value.handlesAll : List Value → List Handle
  | [] => []
  | x :: xs => Value.handles x ++ Value.handlesAll xs
termination_by structural x => x

def Vec.attributeHandles : Option (List (String × Value)) → List Handle
  | none => []
  | some as => Vec.entryHandlesAll as
termination_by structural x => x

def Vec.entryHandlesAll : List (String × Value) → List Handle
  | [] => []
  | a :: as => Vec.entryHandles a ++ Vec.entryHandlesAll as
termination_by structural x => x

def Vec.entryHandles : String × Value → List Handle
  | (_, x) => Value.handles x
termination_by structural x => x

end

end LazyVectors
