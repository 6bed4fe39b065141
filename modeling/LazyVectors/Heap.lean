import LazyVectors.Expr
import LazyVectors.Named
/-!
Frames and promises. A frame binds names and has a parent; a promise is an expression together
with the frame it belongs to and, once it was forced, its value. Both are referred to by number.
A promise for a supplied argument holds its frame until it has a value; all other promises only
refer to theirs. A promise keeps its expression for good, and what stands in it. A frame is
alive while something that is in use leads to it, or something that leads back to itself: what
holds itself is never given up.
-/

set_option autoImplicit false

namespace LazyVectors

/-- What a frame was made for. Frames of calls of one function have the same origin. -/
inductive Origin where
  | top (frame : FrameId)
  | call (function : FunctionId)
  | labelled (name : String)
  deriving DecidableEq, Repr

inductive Binding where
  | value (x : Value)
  | promise (p : PromiseId)
  /-- A formal argument that was not supplied and has no default. -/
  | missing

structure Frame where
  origin : Origin
  parent : Option FrameId
  bindings : Named Binding := []

inductive PromiseState where
  | unevaluated
  | underEvaluation
  | evaluated
  /-- Stands for a default and was not forced yet. -/
  | defaulted
  deriving DecidableEq, Repr

structure Promise where
  expr : Expr
  frame : Option FrameId
  /-- Whether the promise holds its frame. -/
  pinned : Bool
  state : PromiseState
  value : Option Value
  isDefault : Bool

namespace Promise

def argument (e : Expr) (caller : FrameId) : Promise :=
  ⟨e, some caller, true, .unevaluated, none, false⟩

def default (e : Expr) (callee : FrameId) : Promise :=
  ⟨e, some callee, false, .defaulted, none, true⟩

def evaluated (e : Expr) (x : Value) : Promise :=
  ⟨e, none, false, .evaluated, some x, false⟩

end Promise

structure Heap where
  frames : Array Frame := #[]
  promises : Array Promise := #[]
  functions : Program := #[]

def Binding.handles : Binding → List Handle
  | .value x => x.handles
  | .promise p => [.promise p]
  | .missing => []

/-- A promise leads to what its expression and its value lead to, and to the frame that it holds. -/
def Promise.handles (p : Promise) : List Handle :=
  p.expr.handles ++ (if p.pinned then p.frame.toList.map .frame else []) ++
    (p.value.map Value.handles).getD []

def Frame.handles (f : Frame) : List Handle :=
  f.parent.toList.map .frame ++ f.bindings.flatMap (·.2.handles)

namespace Heap

def successors (h : Heap) : Handle → List Handle
  | .frame f => (h.frames[f]?.map Frame.handles).getD []
  | .promise p => (h.promises[p]?.map Promise.handles).getD []
  | .function f => (h.functions[f]?.map Function.handles).getD []

/-- Whether the target is in the front or can be reached from it in a number of rounds, leaving
aside what was seen before. -/
def reaches (h : Heap) (target : Handle) : Nat → List Handle → List Handle → Bool
  | 0, _, _ => false
  | n + 1, seen, front =>
    if front.contains target then true
    else
      let seen := front ++ seen
      let next := ((front.flatMap h.successors).filter (!seen.contains ·)).eraseDups
      if next.isEmpty then false else reaches h target n seen next

def leadsTo (h : Heap) (sources : List Handle) (target : Handle) : Bool :=
  h.reaches target (h.frames.size + h.promises.size + h.functions.size + 2) [] sources

def handles (h : Heap) : List Handle :=
  (List.range h.frames.size).map .frame ++ (List.range h.promises.size).map .promise ++
    (List.range h.functions.size).map .function

def rings (h : Heap) : List Handle := h.handles.filter fun x => h.leadsTo (h.successors x) x

/-- Whether the things in use, or those that hold themselves, lead to a frame. -/
def alive (h : Heap) (roots : List Handle) (f : FrameId) : Bool :=
  h.leadsTo roots (.frame f) || h.leadsTo h.rings (.frame f)

def frameOf? (h : Heap) (roots : List Handle) (p : Promise) : Option FrameId :=
  p.frame.filter (h.alive roots)

def pushFrame (h : Heap) (f : Frame) : FrameId × Heap :=
  (h.frames.size, { h with frames := h.frames.push f })

def newTop (h : Heap) : FrameId × Heap := h.pushFrame ⟨.top h.frames.size, none, []⟩

def newChild (h : Heap) (parent : FrameId) (origin : Origin) : FrameId × Heap :=
  h.pushFrame ⟨origin, some parent, []⟩

def origin? (h : Heap) (f : FrameId) : Option Origin := h.frames[f]?.map (·.origin)

def local? (h : Heap) (f : FrameId) (name : String) : Option Binding :=
  h.frames[f]?.bind (·.bindings.lookup name)

/-- A frame and those around it, from the inside out, at most a number of them. -/
def chainUpTo (h : Heap) : Nat → Option FrameId → List FrameId
  | _, none => []
  | 0, some _ => []
  | n + 1, some f => f :: chainUpTo h n (h.frames[f]?.bind (·.parent))

def chain (h : Heap) (f : FrameId) : List FrameId := h.chainUpTo (h.frames.size + 1) (some f)

def lookup? (h : Heap) (f : FrameId) (name : String) : Option Binding :=
  (h.chain f).findSome? (h.local? · name)

def define (h : Heap) (f : FrameId) (name : String) (b : Binding) : Heap :=
  { h with frames := h.frames.modify f fun r => { r with bindings := r.bindings.put name b } }

def symbols (h : Heap) (f : FrameId) : List String :=
  ((h.frames[f]?.map (·.bindings.names)).getD []).mergeSort (· ≤ ·)

def bindingCount (h : Heap) : Nat :=
  h.frames.foldl (fun n f => n + f.bindings.length) 0

def pushPromise (h : Heap) (p : Promise) : PromiseId × Heap :=
  (h.promises.size, { h with promises := h.promises.push p })

def setState (h : Heap) (p : PromiseId) (s : PromiseState) : Heap :=
  { h with promises := h.promises.modify p fun r => { r with state := s } }

/-- Gives a promise its value; it needs its frame no more. -/
def fulfil (h : Heap) (p : PromiseId) (x : Value) : Heap :=
  { h with promises := h.promises.modify p fun r =>
      { r with state := .evaluated, value := some x, pinned := false } }

end Heap

end LazyVectors
