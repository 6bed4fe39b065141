import LazyVectors.Access.Shape
import LazyVectors.Handle
set_option autoImplicit false

namespace LazyVectors

inductive Arg (ε : Type) where
  | positional (e : ε)
  | named (name : String) (e : ε)
  | empty

inductive Expr where
  | constant (x : Value)
  | lookup (name : String)
  | call (function : Expr) (args : List (Arg Expr))
  /-- Whether an argument of the current call was left out. -/
  | missing (args : List Expr)
  /-- Reading by subscripts, of which some may be omitted. -/
  | index (target : Expr) (subscripts : List (Option Expr)) (mode : Mode)
  | assign (name : String) (value : Expr)
  /-- Writing by subscripts to what a name is bound to. -/
  | assignIndex (name : String) (subscripts : List (Option Expr)) (mode : Mode) (value : Expr)
  /-- A closure of the function with a number over the current frame. -/
  | function (f : FunctionId)
  | block (body : List Expr)

structure Formal where
  name : String
  fallback : Option Expr := none

structure Function where
  name : Option String
  formals : List Formal
  body : Expr

abbrev Program := Array Function

namespace Arg

def expr? {ε : Type} : Arg ε → Option ε
  | positional e | named _ e => some e
  | empty => none

end Arg

namespace Expr

def name? : Expr → Option String
  | lookup name => some name
  | _ => none

end Expr

mutual

/-- An expression leads to what its constants lead to and to the functions in it. -/
def Expr.handles : Expr → List Handle
  | .constant x => x.handles
  | .lookup _ => []
  | .call callee args => Expr.handles callee ++ Expr.argHandles args
  | .missing args => Expr.handlesAll args
  | .index target ss _ => Expr.handles target ++ Expr.givenHandles ss
  | .assign _ value => Expr.handles value
  | .assignIndex _ ss _ value => Expr.givenHandles ss ++ Expr.handles value
  | .function f => [.function f]
  | .block body => Expr.handlesAll body
termination_by structural e => e

def Expr.handlesAll : List Expr → List Handle
  | [] => []
  | e :: es => Expr.handles e ++ Expr.handlesAll es
termination_by structural es => es

def Expr.argHandles : List (Arg Expr) → List Handle
  | [] => []
  | a :: as => Expr.handlesOfArg a ++ Expr.argHandles as
termination_by structural as => as

def Expr.handlesOfArg : Arg Expr → List Handle
  | .positional e | .named _ e => Expr.handles e
  | .empty => []
termination_by structural a => a

def Expr.givenHandles : List (Option Expr) → List Handle
  | [] => []
  | s :: ss => Expr.handlesOfGiven s ++ Expr.givenHandles ss
termination_by structural ss => ss

def Expr.handlesOfGiven : Option Expr → List Handle
  | none => []
  | some e => Expr.handles e
termination_by structural s => s

end

namespace Function

def shown (f : Function) : String := f.name.getD "<anonymous>"

def handles (f : Function) : List Handle :=
  Expr.givenHandles (f.formals.map (·.fallback)) ++ f.body.handles

end Function

end LazyVectors
