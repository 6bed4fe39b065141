set_option autoImplicit false

namespace LazyVectors

/-- What a value is. The vector kinds, `logical` to `list`, stand in promotion order. -/
inductive Kind where
  | null | logical | integer | double | complex | character | list | symbol | closure | foreign
  deriving DecidableEq, Repr

namespace Kind

def rank : Kind → Nat
  | null => 0
  | logical => 1
  | integer => 2
  | double => 3
  | complex => 4
  | character => 5
  | list => 6
  | symbol => 7
  | closure => 8
  | foreign => 9

theorem rank_injective {a b : Kind} (h : a.rank = b.rank) : a = b := by
  cases a <;> cases b <;> first | rfl | exact absurd h (by decide)

/-- The kind that holds the values of both. -/
def promote (a b : Kind) : Kind := if a.rank ≤ b.rank then b else a

theorem rank_promote (a b : Kind) : (a.promote b).rank = max a.rank b.rank := by
  unfold promote
  split <;> omega

theorem rank_promote_le_iff (a b c : Kind) :
    (a.promote b).rank ≤ c.rank ↔ a.rank ≤ c.rank ∧ b.rank ≤ c.rank := by
  rw [rank_promote, Nat.max_le]

theorem promote_self (a : Kind) : a.promote a = a := by simp [promote]

def typeName : Kind → String
  | null => "NULL"
  | logical => "logical"
  | integer => "integer"
  | double => "double"
  | complex => "complex"
  | character => "character"
  | list => "list"
  | symbol => "symbol"
  | closure => "closure"
  | foreign => "foreign"

def implicitClass : Kind → String
  | double => "numeric"
  | symbol => "name"
  | closure => "function"
  | k => k.typeName

def isVector : Kind → Bool
  | logical | integer | double | complex | character | list => true
  | null | symbol | closure | foreign => false

def isAtomic (k : Kind) : Bool := k.isVector && k != list

def ofMode? : String → Option Kind
  | "logical" => some logical
  | "integer" => some integer
  | "double" | "numeric" => some double
  | "complex" => some complex
  | "character" => some character
  | "list" => some list
  | "NULL" => some null
  | "name" | "symbol" => some symbol
  | "function" | "closure" => some closure
  | _ => none

end Kind

end LazyVectors
