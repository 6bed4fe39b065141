import LazyVectors.Handle
import LazyVectors.Named
import LazyVectors.Subscript
/-!
Foreign objects. What they do is up to them; an access by subscripts goes to the object itself
or, for a name that it does not answer for, to the object of its class.
-/

set_option autoImplicit false

namespace LazyVectors

/-- What a foreign object is asked for: an index from zero, or a name. -/
inductive Key where
  | index (i : Int)
  | name (s : String)
  deriving DecidableEq, Repr

structure KeyInfo where
  existing : Bool
  readable : Bool
  writable : Bool
  deriving DecidableEq, Repr

namespace Key

def text : Key → String
  | index i => toString i
  | name s => s

def isName : Key → Bool
  | index _ => false
  | name _ => true

/-- The key that the only element of a vector stands for. Numbers count from one. -/
def ofData? : Data Value → Option Key
  | .integer [k] => if Element.isNA k then none else some (index (k.toInt - 1))
  | .double [x] =>
    if x.isNaN || x.isInfinite || Int64.maxValue.toInt < x.truncate.natAbs then none
    else some (index (x.truncate - 1))
  | .character [some s] => some (name s)
  | _ => none

def ofSubscripts : List Subscript → Except Failure Key
  | [.given x] =>
    match x.vector?.bind (ofData? ·.data) with
    | some k => .ok k
    | none => .error (.foreignAccess (.invalid x.shown))
  | _ => .error (.foreignAccess .positions)

end Key

/-- The foreign objects of a program, which go by labels. `ω` is the state of all of them: an
object may change others when it is written to. -/
class Foreign (ω : Type) where
  keyInfo : ω → String → Key → KeyInfo
  get : ω → String → Key → Except Failure Value
  set : ω → String → Key → Value → Except Failure ω
  classObject? : ω → String → Option String
  handles : ω → List Handle

namespace Foreign

variable {ω : Type} [Foreign ω]

/-- The object that answers for a key: itself if it `can`, or else its class object, if the key
is a name that may be looked for there. -/
def answering? (rs : ω) (object : String) (key : Key) (can toClass : KeyInfo → Bool) :
    Option String :=
  let info := keyInfo rs object key
  if can info then some object
  else if key.isName && toClass info then
    (classObject? rs object).filter fun c => can (keyInfo rs c key)
  else none

def read (rs : ω) (object : String) (ss : List Subscript) : Except Failure Value := do
  let key ← Key.ofSubscripts ss
  match answering? rs object key KeyInfo.readable fun _ => true with
  | some o => get rs o key
  | none => .error (.foreignAccess (.invalid key.text))

def write (rs : ω) (object : String) (ss : List Subscript) (x : Value) : Except Failure ω := do
  let key ← Key.ofSubscripts ss
  match answering? rs object key KeyInfo.writable (!·.existing) with
  | some o => set rs o key x
  | none => .error (.foreignAccess (.invalid key.text))

end Foreign

structure Record where
  members : Named Value := []
  hidden : List String := []
  frozen : List String := []
  addable : List String := []
  failing : List String := []
  classObject : Option String := none

abbrev Records := Named Record

namespace Record

def keyInfo (r : Record) (key : String) : KeyInfo :=
  let existing := (r.members.lookup key).isSome
  ⟨existing, existing && !r.hidden.contains key,
    existing && !r.frozen.contains key || r.addable.contains key⟩

def read (r : Record) (key : String) : Except Failure Value :=
  if r.failing.contains key then .error (.foreignAccess (.reported s!"failing member {key}"))
  else
    match r.members.lookup key with
    | some x => .ok x
    | none => .error (.foreignAccess (.reported s!"no member {key}"))

def write (r : Record) (key : String) (x : Value) : Except Failure Record :=
  if r.failing.contains key then .error (.foreignAccess (.reported s!"failing member {key}"))
  else .ok { r with members := r.members.put key x }

def handles (r : Record) : List Handle := r.members.flatMap (·.2.handles)

end Record

namespace Records

def get (rs : Records) (object : String) : Record := (rs.lookup object).getD {}

def writeMember (rs : Records) (object key : String) (x : Value) : Except Failure Records := do
  return Named.put rs object (← (get rs object).write key x)

instance : Foreign Records where
  keyInfo rs object key := (get rs object).keyInfo key.text
  get rs object key := (get rs object).read key.text
  set rs object key x := writeMember rs object key.text x
  classObject? rs object := (get rs object).classObject
  handles rs := rs.flatMap (·.2.handles)

end Records

end LazyVectors
