import LazyVectors.Access.PlanCache
import LazyVectors.Call
import LazyVectors.ClassMethod
import LazyVectors.Missing
/-!
Evaluation. A constant is its own value, a name is looked up through the frames and forces the
promise it is bound to, and a call binds promises for its arguments and evaluates the body in a
frame of its own. Assignments bind in the current frame. Evaluation is given a bound on how
deeply expressions nest while it runs; running into it is neither a value nor a failure. What is
pending holds frames and promises: every evaluation is told which, since a frame that nothing
holds is gone for the promises that only refer to it.
-/

set_option autoImplicit false

namespace LazyVectors

variable {ω μ : Type}

structure World (ω μ : Type) where
  heap : Heap
  records : ω
  methods : MethodTable μ := []
  extractor : Extractor
  replacer : Replacer
  checker : Checker
  /-- Warnings in the order in which they were raised. -/
  warnings : List Warning := []

inductive Stop where
  | failure (e : Failure)
  /-- The bound on nesting was reached, or an argument is handed on in circles. -/
  | exhausted

abbrev Run (ω μ : Type) := EStateM Stop (World ω μ)

namespace World

def global : FrameId := 0

def ofSizes (records : ω) (extractSize replaceSize missingLimit : Nat) : World ω μ where
  heap := (Heap.newTop {}).2
  records := records
  extractor := .ofSize extractSize
  replacer := .ofSize replaceSize
  checker := .ofLimit missingLimit

/-- What is in use: what is held, the global frame, and what the foreign objects and the methods
lead to. -/
def roots [Foreign ω] [Method μ] (w : World ω μ) (held : List Handle) : List Handle :=
  held ++ .frame global :: (Foreign.handles w.records ++ w.methods.handles)

end World

namespace Run

def fail {α : Type} (e : Failure) : Run ω μ α := throw (.failure e)

def ofExcept {α : Type} : Except Failure α → Run ω μ α
  | .ok a => pure a
  | .error e => fail e

def ofNoted {α : Type} (r : Noted α) : Run ω μ α := do
  modify fun w => { w with warnings := w.warnings ++ r.warnings }
  ofExcept r.result

def modifyHeap (f : Heap → Heap) : Run ω μ Unit := modify fun w => { w with heap := f w.heap }

end Run

/-- Evaluates an expression in a frame while something is held. -/
abbrev Evaluator (ω μ : Type) := List Handle → Expr → FrameId → Run ω μ Value

inductive Builtin where
  | missing | asCharacter | force | isNull
  deriving DecidableEq, Repr

namespace Builtin

def ofName? : String → Option Builtin
  | "missing" => some missing
  | "as.character" => some asCharacter
  | "force" => some force
  | "is.null" => some isNull
  | _ => none

def name : Builtin → String
  | missing => "missing"
  | asCharacter => "as.character"
  | force => "force"
  | isNull => "is.null"

end Builtin

inductive Callee where
  | closure (c : Closure)
  | builtin (b : Builtin)

def missingArgumentName : List Expr → Except Failure String
  | [.lookup name] => .ok name
  | [.constant x] =>
    match x.scalarText? with
    | some name => .ok name
    | none => .error (.runtime .invalidMissing)
  | [_] => .error (.runtime .invalidMissing)
  | args => .error (.argumentCount "missing" 1 args.length)

namespace Eval

variable [Foreign ω] [Method μ]

/-- The value of a promise: the one it has, or that of its expression, which is then kept. While
the expression is evaluated the promise must not be forced again; if that fails, the promise
is left as it was. -/
def force (ev : Evaluator ω μ) (held : List Handle) (id : PromiseId) : Run ω μ Value := fun w =>
  match w.heap.promises[id]? with
  | none => .error (.failure (.runtime .frameGone)) w
  | some p =>
    match p.value with
    | some x => .ok x w
    | none =>
      if p.state = .underEvaluation then .error (.failure .recursiveForce) w
      else
        match w.heap.frameOf? (.promise id :: w.roots held) p with
        | none => .error (.failure (.runtime .frameGone)) w
        | some f =>
          let marked := { w with heap := w.heap.setState id .underEvaluation }
          match ev (.promise id :: .frame f :: held) p.expr f marked with
          | .ok x w => .ok x { w with heap := w.heap.fulfil id x }
          | .error e w => .error e { w with heap := w.heap.setState id p.state }

def lookup (ev : Evaluator ω μ) (held : List Handle) (name : String) (env : FrameId) :
    Run ω μ Value := do
  match (← get).heap.lookup? env name with
  | none => Run.fail (.notFound name)
  | some (.value x) => return x
  | some (.promise p) => force ev held p
  | some .missing => Run.fail (.missingArgument name)

/-- The closure that a name means: bound to it in the nearest frame that binds one. -/
def findClosure (ev : Evaluator ω μ) (held : List Handle) (name : String) :
    List FrameId → Run ω μ (Option Closure)
  | [] => return none
  | f :: rest => do
    let bound ← match (← get).heap.local? f name with
      | none => pure none
      | some (.value x) => pure (some x)
      | some (.promise p) => some <$> force ev held p
      | some .missing => Run.fail (.missingArgument name)
    match bound with
    | some (.closure c) => return some c
    | _ => findClosure ev held name rest

def callee (ev : Evaluator ω μ) (held : List Handle) (function : Expr) (env : FrameId) :
    Run ω μ Callee := do
  match function with
  | .lookup name =>
    match ← findClosure ev held name ((← get).heap.chain env) with
    | some c => return .closure c
    | none =>
      match Builtin.ofName? name with
      | some b => return .builtin b
      | none => Run.fail (.runtime (.functionNotFound name))
  | e =>
    match ← ev held e env with
    | .closure c => return .closure c
    | _ => Run.fail (.runtime .notFunction)

def callClosure (ev : Evaluator ω μ) (held : List Handle) (c : Closure)
    (args : List (Arg Expr)) (caller : FrameId) : Run ω μ Value := do
  match (← get).heap.functions[c.function]? with
  | none => Run.fail (.runtime .notFunction)
  | some f =>
    let (frame, heap) ← Run.ofExcept (Call.bindArguments f c args caller (← get).heap)
    Run.modifyHeap fun _ => heap
    ev (.frame frame :: .function c.function :: held) f.body frame

def missing (held : List Handle) (args : List Expr) (env : FrameId) : Run ω μ Value := do
  let name ← Run.ofExcept (missingArgumentName args)
  let w ← get
  match w.checker.isMissing? w.heap (w.roots held) name env with
  | none => throw .exhausted
  | some ((b, checker), heap) =>
    set { w with heap := heap, checker := checker }
    return .logical b

def onlyArgument (ev : Evaluator ω μ) (held : List Handle) (b : Builtin) (args : List (Arg Expr))
    (env : FrameId) : Run ω μ Value :=
  match args with
  | [a] =>
    match a.expr? with
    | some e => ev held e env
    | none => Run.fail (.runtime .emptyArgument)
  | _ => Run.fail (.argumentCount b.name 1 args.length)

def callBuiltin (ev : Evaluator ω μ) (held : List Handle) (b : Builtin) (args : List (Arg Expr))
    (env : FrameId) : Run ω μ Value := do
  match b with
  | .missing => missing held (args.map fun a => a.expr?.getD (.constant .null)) env
  | .asCharacter =>
    let x ← onlyArgument ev held b args env
    let w ← get
    let (answer, methods) := w.methods.asText x
    set { w with methods := methods }
    Run.ofExcept answer
  | .force => onlyArgument ev held b args env
  | .isNull => return .logical (← onlyArgument ev held b args env).isNull

def subscripts (ev : Evaluator ω μ) (held : List Handle) (env : FrameId) :
    List (Option Expr) → Run ω μ (List Subscript)
  | [] => return []
  | none :: rest => return .omitted :: (← subscripts ev held env rest)
  | some e :: rest => do
    let x ← ev held e env
    return .given x :: (← subscripts ev (x.handles ++ held) env rest)

/-- The value of the last expression, each earlier value being held until the next is known. -/
def block (ev : Evaluator ω μ) (held : List Handle) (env : FrameId) (last : Value) :
    List Expr → Run ω μ Value
  | [] => return last
  | e :: rest => do block ev held env (← ev (last.handles ++ held) e env) rest

def index (ev : Evaluator ω μ) (held : List Handle) (env : FrameId) (target : Expr)
    (ss : List (Option Expr)) (mode : Mode) : Run ω μ Value := do
  let x ← ev held target env
  let ss ← subscripts ev (x.handles ++ held) env ss
  let w ← get
  let (answer, extractor) := w.extractor.apply w.records x ss mode true
  set { w with extractor := extractor }
  Run.ofExcept answer

def assignIndex [Memory] (ev : Evaluator ω μ) (held : List Handle) (env : FrameId) (name : String)
    (ss : List (Option Expr)) (mode : Mode) (value : Expr) : Run ω μ Value := do
  let value ← ev held value env
  let held := value.handles ++ held
  let ss ← subscripts ev held env ss
  let given := ss.flatMap fun s => match s with
    | .omitted => []
    | .given x => x.handles
  let x ← lookup ev (given ++ held) name env
  let w ← get
  let (answer, replacer) := w.replacer.apply w.records x ss value mode
  set { w with replacer := replacer }
  let (x, records) ← Run.ofNoted answer
  modify fun w => { w with records := records, heap := w.heap.define env name (.value x) }
  return value

def step [Memory] (ev : Evaluator ω μ) : Evaluator ω μ := fun held e env => do
  match e with
  | .constant x => return x
  | .lookup name => lookup ev held name env
  | .call function args =>
    match ← callee ev held function env with
    | .closure c => callClosure ev held c args env
    | .builtin b => callBuiltin ev held b args env
  | .missing args => missing held args env
  | .index target ss mode => index ev held env target ss mode
  | .assign name value =>
    let x ← ev held value env
    Run.modifyHeap (·.define env name (.value x))
    return x
  | .assignIndex name ss mode value => assignIndex ev held env name ss mode value
  | .function f => return .closure ⟨f, env, ((← get).heap.functions[f]?).bind (·.name)⟩
  | .block body => block ev held env .null body

end Eval

/-- Evaluates an expression that nests, while it runs, no deeper than a bound. -/
def eval [Memory] [Foreign ω] [Method μ] : Nat → Evaluator ω μ
  | 0 => fun _ _ _ => throw .exhausted
  | n + 1 => Eval.step (eval n)

def run [Memory] [Foreign ω] [Method μ] (n : Nat) (held : List Handle) (es : List Expr) :
    Run ω μ Value :=
  Eval.block (eval n) (Expr.handlesAll es ++ held) World.global .null es

end LazyVectors
