/-! Decimal digits, most significant first. -/

set_option autoImplicit false

namespace LazyVectors.Decimal

/-- The decimal digits of a number; zero has one. -/
def digits (n : Nat) : List Nat :=
  if n < 10 then [n] else digits (n / 10) ++ [n % 10]
termination_by n
decreasing_by omega

def value (ds : List Nat) : Nat := ds.foldl (fun n d => 10 * n + d) 0

def digitChar (d : Nat) : Char := Char.ofNat ('0'.toNat + d)

def digit? (c : Char) : Option Nat :=
  if '0' ≤ c ∧ c ≤ '9' then some (c.toNat - '0'.toNat) else none

def hexDigit? (c : Char) : Option Nat :=
  if '0' ≤ c ∧ c ≤ '9' then some (c.toNat - '0'.toNat)
  else if 'a' ≤ c ∧ c ≤ 'f' then some (c.toNat - 'a'.toNat + 10)
  else if 'A' ≤ c ∧ c ≤ 'F' then some (c.toNat - 'A'.toNat + 10)
  else none

/-- Ten to a power: what a digit counts for that has so many places behind it. -/
def placeValue (k : Nat) : Nat := Nat.pow 10 k

def valueIn (base : Nat) (ds : List Nat) : Nat := ds.foldl (fun n d => base * n + d) 0

def text (ds : List Nat) : List Char := ds.map digitChar

theorem placeValue_succ (k : Nat) : placeValue (k + 1) = placeValue k * 10 := rfl

theorem value_append_singleton (ds : List Nat) (d : Nat) :
    value (ds ++ [d]) = 10 * value ds + d := by
  simp [value, List.foldl_append]

theorem value_digits (n : Nat) : value (digits n) = n := by
  induction n using Nat.strongRecOn with
  | ind n ih =>
    rw [digits]
    split
    · simp [value]
    · rw [value_append_singleton, ih (n / 10) (by omega)]
      omega

theorem digits_ne_nil (n : Nat) : digits n ≠ [] := by
  rw [digits]
  split <;> simp

theorem digits_lt (n : Nat) : ∀ d ∈ digits n, d < 10 := by
  induction n using Nat.strongRecOn with
  | ind n ih =>
    rw [digits]
    split
    · simpa
    · intro d hd
      rcases List.mem_append.1 hd with h | h
      · exact ih (n / 10) (by omega) d h
      · simp only [List.mem_singleton] at h
        omega

theorem digits_length (n : Nat) : n < placeValue (digits n).length := by
  induction n using Nat.strongRecOn with
  | ind n ih =>
    rw [digits]
    split
    · assumption
    · have h := ih (n / 10) (by omega)
      simp only [List.length_append, List.length_singleton, placeValue_succ]
      omega

theorem placeValue_le (n : Nat) (h : 0 < n) : placeValue ((digits n).length - 1) ≤ n := by
  induction n using Nat.strongRecOn with
  | ind n ih =>
    rw [digits]
    split
    · exact h
    · have hi := ih (n / 10) (by omega) (by omega)
      have hl : (digits (n / 10)).length ≠ 0 := by
        simpa using digits_ne_nil (n / 10)
      obtain ⟨k, hk⟩ := Nat.exists_eq_succ_of_ne_zero hl
      simp only [hk, Nat.succ_eq_add_one, Nat.add_sub_cancel] at hi
      simp only [List.length_append, List.length_singleton, hk, Nat.add_sub_cancel]
      rw [Nat.succ_eq_add_one, placeValue_succ]
      omega

end LazyVectors.Decimal
