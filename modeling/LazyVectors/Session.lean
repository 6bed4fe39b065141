import LazyVectors.Eval
import LazyVectors.Settings
/-!
Sessions: a world in which programs run, with frames, promises and checkers held by labels. What
a session holds stays alive; dropping a label gives it up.
-/

set_option autoImplicit false

namespace LazyVectors

variable {ω μ : Type}

structure Session (ω μ : Type) where
  world : World ω μ
  frames : Named FrameId := []
  promises : Named PromiseId := []
  checkers : Named Checker := []

namespace Session

def ofSettings (records : ω) (s : Settings) : Session ω μ where
  world := .ofSizes records s.extractCacheSize s.replaceCacheSize s.missingCacheSize

/-- Caches with settings that pass the check hold as many plans as was asked for. -/
theorem capacity_ofSettings {s : Settings} (h : s.check = .ok s) (records : ω) :
    (ofSettings (μ := μ) records s).world.extractor.capacity = s.extractCacheSize ∧
    (ofSettings (μ := μ) records s).world.replacer.capacity = s.replaceCacheSize := by
  obtain ⟨-, hsizes, -⟩ := Settings.check_eq_ok.1 h
  simp only [Settings.sizes, List.forall_mem_cons] at hsizes
  exact ⟨Nat.max_eq_right hsizes.2.1, Nat.max_eq_right hsizes.1⟩

def held (s : Session ω μ) : List Handle :=
  s.frames.map (fun f => .frame f.2) ++ s.promises.map fun p => .promise p.2

def dropFrame (s : Session ω μ) (label : String) : Session ω μ :=
  { s with frames := s.frames.erase label }

def dropPromise (s : Session ω μ) (label : String) : Session ω μ :=
  { s with promises := s.promises.erase label }

def withHeap (s : Session ω μ) (h : Heap) : Session ω μ :=
  { s with world := { s.world with heap := h } }

section

variable [Foreign ω] [Method μ]

def roots (s : Session ω μ) : List Handle := s.world.roots s.held

def depth : Nat := 10000

/-- Runs an evaluation. The world it leaves is kept even if it does not succeed. -/
def perform {α : Type} (s : Session ω μ) (m : Run ω μ α) : Except Stop α × Session ω μ :=
  match m.run s.world with
  | .ok a w => (.ok a, { s with world := w })
  | .error e w => (.error e, { s with world := w })

def run [Memory] (s : Session ω μ) (es : List Expr) : Except Stop Value × Session ω μ :=
  s.perform (LazyVectors.run depth s.held es)

/-- Evaluates an expression in a frame, while more than the session's own handles is held. -/
def eval [Memory] (s : Session ω μ) (more : List Handle) (e : Expr) (f : FrameId) :
    Except Stop Value × Session ω μ :=
  s.perform (LazyVectors.eval depth (more ++ e.handles ++ s.held) e f)

def force [Memory] (s : Session ω μ) (p : PromiseId) : Except Stop Value × Session ω μ :=
  s.perform (Eval.force (LazyVectors.eval depth) s.held p)

def valueOf [Memory] (s : Session ω μ) (name : String) (f : FrameId) :
    Except Stop Value × Session ω μ :=
  s.perform (Eval.lookup (LazyVectors.eval depth) s.held name f)

def newFrame (s : Session ω μ) (label : String) (parent : FrameId) (origin : String) :
    Session ω μ :=
  let (f, h) := s.world.heap.newChild parent (.labelled origin)
  { s.withHeap h with frames := s.frames.put label f }

def newPromise (s : Session ω μ) (label : String) (p : Promise) : PromiseId × Session ω μ :=
  let (id, h) := s.world.heap.pushPromise p
  (id, { s.withHeap h with promises := s.promises.put label id })

def define (s : Session ω μ) (f : FrameId) (name : String) (b : Binding) : Session ω μ :=
  s.withHeap (s.world.heap.define f name b)

def frameOf? (s : Session ω μ) (id : PromiseId) (p : Promise) : Option FrameId :=
  s.world.heap.frameOf? (.promise id :: s.roots) p

def isMissing? (s : Session ω μ) (name : String) (f : FrameId) (level : Nat) :
    Option (Bool × Session ω μ) :=
  (s.world.heap.isMissing? s.roots name f level).map fun (b, h) => (b, s.withHeap h)

def check? (s : Session ω μ) (label name : String) (f : FrameId) :
    Option ((Bool × Checker) × Session ω μ) := do
  let c ← s.checkers.lookup label
  let ((b, c), h) ← c.isMissing? s.world.heap s.roots name f
  return ((b, c), { s.withHeap h with checkers := s.checkers.put label c })

end

def clearPlans (s : Session ω μ) : Session ω μ :=
  { s with world := { s.world with
      extractor := s.world.extractor.clear, replacer := s.world.replacer.clear } }

def takeWarnings (s : Session ω μ) : List Warning × Session ω μ :=
  (s.world.warnings, { s with world := { s.world with warnings := [] } })

end Session

end LazyVectors
