import LazyVectors.Heap
/-!
Setting up a call. Named arguments go to the formals of their names; the others, in order, to
the formals that are left. A formal is then bound to a promise for what was supplied, to a
promise for its default, or to the missing marker.
-/

set_option autoImplicit false

namespace LazyVectors

namespace Call

abbrev Slot := Option Expr

def placeNamed (formals : List String) : List Slot → List (Arg Expr) → Except Failure (List Slot)
  | slots, [] => .ok slots
  | slots, .named name e :: args =>
    match formals.findIdx? (· == name) with
    | none => .error (.runtime (.unusedArgument name))
    | some i =>
      if (slots[i]?.join).isSome then .error (.runtime (.matchedTwice name))
      else placeNamed formals (slots.set i (some e)) args
  | slots, _ :: args => placeNamed formals slots args

def unnamed : List (Arg Expr) → List (Option Expr)
  | [] => []
  | .named _ _ :: args => unnamed args
  | .positional e :: args => some e :: unnamed args
  | .empty :: args => none :: unnamed args

def placeUnnamed : List Slot → List (Option Expr) → Option (List (Option Expr))
  | slots, [] => some slots
  | [], _ :: _ => none
  | some e :: slots, xs => (placeUnnamed slots xs).map (some e :: ·)
  | none :: slots, x :: xs => (placeUnnamed slots xs).map (x :: ·)

/-- The expression supplied for each formal, in the order of the formals. -/
def matchArguments (f : Function) (args : List (Arg Expr)) :
    Except Failure (List (Option Expr)) := do
  let names := f.formals.map (·.name)
  let slots ← placeNamed names (names.map fun _ => none) args
  match placeUnnamed slots (unnamed args) with
  | some supplied => return supplied
  | none => .error (.argumentCount f.shown f.formals.length args.length)

/-- The promise for a formal, if anything stands for it. A constant needs no evaluation. -/
def promiseFor (caller callee : FrameId) : Option Expr → Option Expr → Option Promise
  | some (.constant x), _ => some (.evaluated (.constant x) x)
  | some e, _ => some (.argument e caller)
  | none, some e => some (.default e callee)
  | none, none => none

def bindFormals (caller callee : FrameId) (h : Heap) : List (Formal × Option Expr) → Heap
  | [] => h
  | (formal, supplied) :: rest =>
    match promiseFor caller callee supplied formal.fallback with
    | some p =>
      let (id, h) := h.pushPromise p
      bindFormals caller callee (h.define callee formal.name (.promise id)) rest
    | none => bindFormals caller callee (h.define callee formal.name .missing) rest

def bindArguments (f : Function) (c : Closure) (args : List (Arg Expr)) (caller : FrameId)
    (h : Heap) : Except Failure (FrameId × Heap) := do
  let supplied ← matchArguments f args
  let (callee, h) := h.newChild c.frame (.call c.function)
  return (callee, bindFormals caller callee h (f.formals.zip supplied))

end Call

end LazyVectors
