import LazyVectors.Value
/-!
Equality of values. Missing elements are equal to each other, doubles are compared by
`Double.identical`, closures and foreign objects by what they refer to, attributes in order. The
completeness flag plays no part.
-/

set_option autoImplicit false

namespace LazyVectors

def Closure.same (a b : Closure) : Bool := a.function == b.function && a.frame == b.frame

def Cplx.identical (a b : Cplx) : Bool := a.re.identical b.re && a.im.identical b.im

def pairwiseAll {α : Type} (r : α → α → Bool) : List α → List α → Bool
  | [], [] => true
  | a :: as, b :: bs => r a b && pairwiseAll r as bs
  | _, _ => false

mutual

def Value.same : Value → Value → Bool
  | .null, .null => true
  | .symbol a, .symbol b => a == b
  | .vector a, .vector b => Vec.same a b
  | .closure a, .closure b => a.same b
  | .foreign a, .foreign b => a == b
  | _, _ => false
termination_by structural a => a

def Vec.same : Vec Value → Vec Value → Bool
  | ⟨d, as, _⟩, ⟨e, bs, _⟩ => Data.same d e && Vec.sameAttributes as bs
termination_by structural a => a

def Data.same : Data Value → Data Value → Bool
  | .logical a, .logical b => a == b
  | .integer a, .integer b => a == b
  | .double a, .double b => pairwiseAll Double.identical a b
  | .complex a, .complex b => pairwiseAll Cplx.identical a b
  | .character a, .character b => a == b
  | .list a, .list b => Value.sameAll a b
  | _, _ => false
termination_by structural a => a

def Value.sameAll : List Value → List Value → Bool
  | [], [] => true
  | a :: as, b :: bs => Value.same a b && Value.sameAll as bs
  | _, _ => false
termination_by structural a => a

def Vec.sameAttributes : Option (List (String × Value)) → Option (List (String × Value)) → Bool
  | none, none => true
  | some as, some bs => Vec.sameEntries as bs
  | _, _ => false
termination_by structural a => a

def Vec.sameEntries : List (String × Value) → List (String × Value) → Bool
  | [], [] => true
  | a :: as, b :: bs => Vec.sameEntry a b && Vec.sameEntries as bs
  | _, _ => false
termination_by structural a => a

def Vec.sameEntry : String × Value → String × Value → Bool
  | (m, a), (n, b) => m == n && Value.same a b
termination_by structural a => a

end

instance : BEq Value := ⟨Value.same⟩

instance : BEq (Vec Value) := ⟨Vec.same⟩

end LazyVectors
