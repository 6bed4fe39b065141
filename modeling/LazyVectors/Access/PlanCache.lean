import LazyVectors.Access.Extract
import LazyVectors.Access.Replace
set_option autoImplicit false

namespace LazyVectors

/-- Plans by shape, the one used last in front. -/
structure PlanCache (P : Type) where
  capacity : Nat
  plans : List (Shape × P) := []
  hits : Nat := 0
  misses : Nat := 0

namespace PlanCache

variable {P : Type}

def ofSize (size : Nat) : PlanCache P := { capacity := max 1 size }

def size (c : PlanCache P) : Nat := c.plans.length

def clear (c : PlanCache P) : PlanCache P := { c with plans := [] }

def promote (s : Shape) (p : P) (plans : List (Shape × P)) : List (Shape × P) :=
  (s, p) :: plans.eraseP (·.1 == s)

def fetch (c : PlanCache P) (s : Shape) (build : Shape → Except Failure P) :
    Except Failure P × PlanCache P :=
  match c.plans.lookup s with
  | some p => (.ok p, { c with plans := promote s p c.plans, hits := c.hits + 1 })
  | none =>
    match build s with
    | .ok p =>
      (.ok p, { c with plans := (promote s p c.plans).take c.capacity, misses := c.misses + 1 })
    | .error e => (.error e, { c with misses := c.misses + 1 })

end PlanCache

abbrev Extractor := PlanCache ExtractPlan

abbrev Replacer := PlanCache ReplacePlan

variable {ω : Type} [Foreign ω]

/-- Reads through the cache. A plan for another shape is not used. -/
def Extractor.apply (c : Extractor) (rs : ω) (x : Value) (ss : List Subscript) (mode : Mode)
    (drop : Bool) : Except Failure Value × Extractor :=
  let shape := Shape.of x ss none mode
  match c.fetch shape ExtractPlan.build with
  | (.error e, c) => (.error e, c)
  | (.ok p, c) =>
    let plan := if p.shape = shape then .ok p else ExtractPlan.build shape
    (plan.bind fun p => p.run rs x ss drop, c)

def Replacer.apply [Memory] (c : Replacer) (rs : ω) (x : Value) (ss : List Subscript)
    (value : Value) (mode : Mode) : Noted (Value × ω) × Replacer :=
  let shape := Shape.of x ss (some value) mode
  match c.fetch shape ReplacePlan.build with
  | (.error e, c) => (.fail e, c)
  | (.ok p, c) =>
    let plan := if p.shape = shape then .ok p else ReplacePlan.build shape
    ((Noted.ofExcept plan).bind fun p => p.run rs x ss value, c)

end LazyVectors
