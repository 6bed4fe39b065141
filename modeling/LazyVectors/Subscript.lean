import LazyVectors.Vec
set_option autoImplicit false

namespace LazyVectors

inductive Subscript where
  | omitted
  | given (x : Value)

inductive SubscriptKind where
  | missing | null | logical | integer | double | character | other
  deriving DecidableEq, Repr

/-- What a subscript asks for, before it meets a vector. -/
inductive Position where
  | everything
  | nothing
  | indices (is : List (Option Nat))
  | excluding (is : List Nat)
  | mask (bs : List (Option Bool))
  | named (ns : List (Option String))
  deriving DecidableEq, Repr

def insertAscending (n : Nat) : List Nat → List Nat
  | [] => [n]
  | m :: ms => if n < m then n :: m :: ms else if n = m then m :: ms else m :: insertAscending n ms

def ascending (ns : List Nat) : List Nat := ns.foldr insertAscending []

theorem mem_insertAscending (n k : Nat) (ms : List Nat) :
    k ∈ insertAscending n ms ↔ k = n ∨ k ∈ ms := by
  induction ms with
  | nil => simp [insertAscending]
  | cons m ms ih =>
    unfold insertAscending
    split
    · simp
    · split
      · simp_all
      · simp only [List.mem_cons, ih]
        constructor
        · rintro (h | h | h) <;> simp [h]
        · rintro (h | h | h) <;> simp [h]

theorem mem_ascending (k : Nat) (ns : List Nat) : k ∈ ascending ns ↔ k ∈ ns := by
  induction ns with
  | nil => simp [ascending]
  | cons n ns ih =>
    rw [show ascending (n :: ns) = insertAscending n (ascending ns) from rfl, mem_insertAscending,
      ih, List.mem_cons]

theorem pairwise_insertAscending (n : Nat) (ms : List Nat) (h : ms.Pairwise (· < ·)) :
    (insertAscending n ms).Pairwise (· < ·) := by
  induction ms with
  | nil => simp [insertAscending]
  | cons m ms ih =>
    rw [List.pairwise_cons] at h
    unfold insertAscending
    split
    · rename_i hn
      refine List.pairwise_cons.2 ⟨fun k hk => ?_, List.pairwise_cons.2 h⟩
      rcases List.mem_cons.1 hk with rfl | hk
      · exact hn
      · exact Nat.lt_trans hn (h.1 k hk)
    · split
      · exact List.pairwise_cons.2 h
      · refine List.pairwise_cons.2 ⟨fun k hk => ?_, ih h.2⟩
        rcases (mem_insertAscending n k ms).1 hk with rfl | hk
        · omega
        · exact h.1 k hk

theorem pairwise_ascending (ns : List Nat) : (ascending ns).Pairwise (· < ·) := by
  induction ns with
  | nil => simp [ascending]
  | cons n ns ih => exact pairwise_insertAscending n _ ih

namespace Position

/-- A whole number asks for the index one below; zero asks for nothing. -/
def wanted : Option Int → Option (Option Nat)
  | none => some none
  | some k => if 0 < k then some (some (k - 1).toNat) else none

def unwanted : Option Int → Option Nat
  | none => none
  | some k => if k < 0 then some (-(k + 1)).toNat else none

def ofNumbers (ks : List (Option Int)) : Except Failure Position :=
  let positive := ks.filterMap wanted
  let negative := ks.filterMap unwanted
  if negative.isEmpty then .ok (if positive.isEmpty then nothing else indices positive)
  else if ks.contains none then .error (.index .missingWithNegative)
  else if !positive.isEmpty then .error (.index .mixedSigns)
  else .ok (excluding (ascending negative))

def ofInteger (k : Int32) : Option Int := if Element.isNA k then none else some k.toInt

/-- A number with a fraction counts as the whole number next to it on the side of zero, and one
beyond 64 bits as the last of them. -/
def ofDouble (x : Double) : Option Int :=
  if x.isNaN then none else some (x.truncateWithin Int64.minValue.toInt Int64.maxValue.toInt)

def ofData : Data Value → Except Failure Position
  | .integer ks => ofNumbers (ks.map ofInteger)
  | .double xs => ofNumbers (xs.map ofDouble)
  | .logical bs => .ok (mask bs)
  | .character ns => .ok (named ns)
  | d => .error (.index (.invalidSubscript d.kind))

end Position

namespace Subscript

def position : Subscript → Except Failure Position
  | omitted => .ok .everything
  | given .null => .ok .nothing
  | given (.vector v) => Position.ofData v.data
  | given x => .error (.index (.invalidSubscript x.kind))

def kind : Subscript → SubscriptKind
  | omitted => .missing
  | given x =>
    match x.kind with
    | .null => .null
    | .logical => .logical
    | .integer => .integer
    | .double => .double
    | .character => .character
    | _ => .other

def length? : Subscript → Option Nat
  | omitted => none
  | given x => some x.length

end Subscript

end LazyVectors
