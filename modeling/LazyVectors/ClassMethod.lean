import LazyVectors.Handle
import LazyVectors.Vec.Attributes
set_option autoImplicit false

namespace LazyVectors

/-- What a method does. A call may change what the method keeps for itself. -/
class Method (μ : Type) where
  call : μ → Value → Except Failure Value × μ
  handles : μ → List Handle

abbrev PlainMethod := Value → Except Failure Value

instance : Method PlainMethod where
  call f x := (f x, f)
  handles _ := []

structure ClassMethod (μ : Type) where
  generic : String
  className : String
  body : μ

abbrev MethodTable (μ : Type) := List (ClassMethod μ)

namespace ClassMethod

def isFor {μ : Type} (m : ClassMethod μ) (generic className : String) : Bool :=
  m.generic == generic && m.className == className

end ClassMethod

namespace MethodTable

variable {μ : Type}

/-- A later method for the same generic operation and class replaces the earlier. -/
def register (m : ClassMethod μ) : MethodTable μ → MethodTable μ
  | [] => [m]
  | n :: ns => if n.isFor m.generic m.className then m :: ns else n :: register m ns

def find? (t : MethodTable μ) (generic : String) (classes : List String) :
    Option (ClassMethod μ) :=
  classes.findSome? fun c => List.find? (·.isFor generic c) t

variable [Method μ]

def handles (t : MethodTable μ) : List Handle := t.flatMap (Method.handles ·.body)

/-- The answer of the first method along the classes, if there is one, and the methods after
the call. -/
def dispatch (t : MethodTable μ) (generic : String) (x : Value) :
    Option (Except Failure Value × MethodTable μ) :=
  (find? t generic x.classes).map fun m =>
    let (answer, body) := Method.call m.body x
    (answer, register { m with body := body } t)

end MethodTable

def Value.plainText : Value → Except Failure Value
  | .null => .ok (.vector (.ofStrings []))
  | .symbol name => .ok (.string name)
  | .vector v =>
    if v.kind = .list then .error (.coercion .listText)
    else
      let text := Vec.ofStrings v.data.toText
      match v.names? with
      | some ns => (text.setNames ns).map .vector
      | none => .ok (.vector text)
  | x => .error (.coercion (.kinds x.kind .character))

def MethodTable.asText {μ : Type} [Method μ] (t : MethodTable μ) (x : Value) :
    Except Failure Value × MethodTable μ :=
  let isObject := match x with
    | .vector v => v.isObject
    | _ => false
  if isObject then
    match t.dispatch "as.character" x with
    | some (.ok y, t) => (.ok y, t)
    | some (.error _, t) => (x.plainText, t)
    | none => (x.plainText, t)
  else (x.plainText, t)

end LazyVectors
