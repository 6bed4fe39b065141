import LazyVectors.Heap
/-!
Whether an argument was left out. Arguments handed on by their bare name are followed into the
frame of their promise, one level at a time, and nothing is evaluated. A promise between two
calls of one function is marked as under evaluation while the walk is behind it, so that it is
not followed twice; all marks are taken back. A `Checker` answers the same question and
remembers, level by level, which names it was asked.
-/

set_option autoImplicit false

namespace LazyVectors

inductive Verdict where
  | settled (missing : Bool)
  /-- Handed on by a name in a frame; the promise to mark, if there is one. -/
  | forwarded (name : String) (frame : FrameId) (guarded : Option PromiseId)
  deriving DecidableEq, Repr

namespace Heap

def promiseVerdict (h : Heap) (roots : List Handle) (frame : FrameId) (level : Nat)
    (id : PromiseId) (p : Promise) : Verdict :=
  if level = 0 ∧ p.isDefault then .settled true
  else if level ≠ 0 ∧ p.state = .evaluated then .settled false
  else if p.state = .underEvaluation then .settled true
  else
    match p.expr.name?, h.frameOf? roots p with
    | some name, some f =>
      if h.origin? f = h.origin? frame then .forwarded name f (some id)
      else if p.state = .evaluated then .settled false
      else .forwarded name f none
    | _, _ => .settled false

def verdict (h : Heap) (roots : List Handle) (name : String) (frame : FrameId) (level : Nat) :
    Verdict :=
  match h.local? frame name with
  | none => .settled false
  | some .missing => .settled true
  | some (.value _) => .settled false
  | some (.promise id) =>
    match h.promises[id]? with
    | some p => h.promiseVerdict roots frame level id p
    | none => .settled false

/-- Continues with a promise marked, and takes the mark back. -/
def guarded {α : Type} (h : Heap) (mark : Option PromiseId)
    (next : Heap → Option (α × Heap)) : Option (α × Heap) :=
  match mark.bind fun p => h.promises[p]?.map fun r => (p, r.state) with
  | none => next h
  | some (p, state) =>
    (next (h.setState p .underEvaluation)).map fun (a, h) => (a, h.setState p state)

def walk (roots : List Handle) : Nat → Heap → String → FrameId → Nat → Option (Bool × Heap)
  | 0, _, _, _, _ => none
  | n + 1, h, name, frame, level =>
    match h.verdict roots name frame level with
    | .settled b => some (b, h)
    | .forwarded next f mark => h.guarded mark fun h => walk roots n h next f (level + 1)

/-- More steps than any walk takes that comes to an end: a walk that meets a binding twice
without having marked a promise in between goes on forever. -/
def walkBound (h : Heap) : Nat := (h.promises.size + 1) * (h.bindingCount + 2)

def isMissing? (h : Heap) (roots : List Handle) (name : String) (frame : FrameId) (level : Nat) :
    Option (Bool × Heap) :=
  walk roots h.walkBound h name frame level

end Heap

/-- The names asked for at a level, each with the checker for the level behind it. -/
inductive Checker where
  | node (level limit : Nat) (entries : List (String × Checker))

namespace Checker

def ofLimit (limit : Nat) : Checker := node 0 limit []

def level : Checker → Nat
  | node level _ _ => level

def names : Checker → List String
  | node _ _ entries => Named.names entries

def child? (name : String) : Checker → Option Checker
  | node level limit entries =>
    match entries.lookup name with
    | some c => some c
    | none => if entries.length < limit then some (node (level + 1) limit []) else none

def withChild : Checker → String → Checker → Checker
  | node level limit entries, name, c => node level limit (Named.put entries name c)

/-- As without a checker, but for the names remembered; a name that there is no room for is followed
without one. -/
def walk (roots : List Handle) : Nat → Checker → Heap → String → FrameId →
    Option ((Bool × Checker) × Heap)
  | 0, _, _, _, _ => none
  | n + 1, c, h, name, frame =>
    match c.child? name with
    | none => (Heap.walk roots (n + 1) h name frame c.level).map fun (b, h) => ((b, c), h)
    | some child =>
      match h.verdict roots name frame c.level with
      | .settled b => some ((b, c.withChild name child), h)
      | .forwarded next f mark =>
        (h.guarded mark fun h => walk roots n child h next f).map fun ((b, child), h) =>
          ((b, c.withChild name child), h)

def isMissing? (c : Checker) (h : Heap) (roots : List Handle) (name : String) (frame : FrameId) :
    Option ((Bool × Checker) × Heap) :=
  walk roots h.walkBound c h name frame

end Checker

end LazyVectors
