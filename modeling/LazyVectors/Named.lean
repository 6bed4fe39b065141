set_option autoImplicit false

namespace LazyVectors

abbrev Named (α : Type) := List (String × α)

namespace Named

variable {α : Type}

def names (xs : Named α) : List String := xs.map (·.1)

/-- Overwrites in place, or puts a new name last. -/
def put : Named α → String → α → Named α
  | [], name, a => [(name, a)]
  | (n, b) :: xs, name, a => if n = name then (n, a) :: xs else (n, b) :: put xs name a

theorem mem_of_lookup {κ : Type} [BEq κ] [LawfulBEq κ] {xs : List (κ × α)} {k : κ} {a : α}
    (h : xs.lookup k = some a) : (k, a) ∈ xs := by
  obtain ⟨before, after, rfl, -⟩ := List.lookup_eq_some_iff.1 h
  simp

theorem isSome_lookup {κ : Type} [BEq κ] [LawfulBEq κ] {xs : List (κ × α)} {k : κ} :
    (xs.lookup k).isSome = true ↔ k ∈ xs.map (·.1) := by
  rw [List.lookup_isSome_iff]
  simp only [List.mem_map, beq_iff_eq]
  exact exists_congr fun x => and_congr_right fun _ => eq_comm

def erase (xs : Named α) (name : String) : Named α := xs.eraseP (·.1 == name)

theorem lookup_put (xs : Named α) (name other : String) (a : α) :
    (put xs name a).lookup other = if other = name then some a else xs.lookup other := by
  induction xs with
  | nil =>
    by_cases h : other = name
    · simp [put, h]
    · simp [put, List.lookup_cons, h, beq_false_of_ne h]
  | cons x xs ih =>
    obtain ⟨n, b⟩ := x
    unfold put
    by_cases hn : n = name
    · subst n
      by_cases h : other = name
      · simp [h]
      · simp [List.lookup_cons, h, beq_false_of_ne h]
    · by_cases h : other = n
      · subst other
        simp [hn]
      · simp [hn, List.lookup_cons, beq_false_of_ne h, ih]

theorem names_put (xs : Named α) (name : String) (a : α) :
    names (put xs name a) = if name ∈ names xs then names xs else names xs ++ [name] := by
  induction xs with
  | nil => rfl
  | cons x xs ih =>
    obtain ⟨n, b⟩ := x
    unfold put
    by_cases hn : n = name
    · subst n
      simp [names]
    · have hm : name ≠ n := fun h => hn h.symm
      rw [if_neg hn]
      unfold names at ih ⊢
      rw [List.map_cons, ih, List.map_cons]
      by_cases h : name ∈ xs.map (·.1) <;> simp_all

theorem put_of_place {xs : Named α} {name : String} {i : Nat}
    (h : xs.findIdx? (·.1 == name) = some i) (a : α) : put xs name a = xs.set i (name, a) := by
  induction xs generalizing i with
  | nil => cases h
  | cons x xs ih =>
    obtain ⟨n, b⟩ := x
    rw [List.findIdx?_cons] at h
    unfold put
    by_cases hn : n = name
    · obtain rfl : i = 0 := by simpa [hn, eq_comm] using h
      simp [hn]
    · obtain ⟨j, hj, rfl⟩ : ∃ j, xs.findIdx? (·.1 == name) = some j ∧ j + 1 = i := by
        simpa [hn] using h
      rw [if_neg hn, ih hj, List.set_cons_succ]

theorem put_of_new {xs : Named α} {name : String} (h : xs.findIdx? (·.1 == name) = none) (a : α) :
    put xs name a = xs ++ [(name, a)] := by
  induction xs with
  | nil => rfl
  | cons x xs ih =>
    obtain ⟨n, b⟩ := x
    rw [List.findIdx?_eq_none_iff] at h
    have hn : n ≠ name := by simpa using h (n, b) List.mem_cons_self
    have hxs : xs.findIdx? (·.1 == name) = none :=
      List.findIdx?_eq_none_iff.2 fun y hy => h y (List.mem_cons_of_mem _ hy)
    rw [put, if_neg hn, ih hxs, List.cons_append]

theorem lookup_erase_of_ne (xs : Named α) {name other : String} (h : other ≠ name) :
    (erase xs name).lookup other = xs.lookup other := by
  induction xs with
  | nil => rfl
  | cons x xs ih =>
    obtain ⟨n, a⟩ := x
    unfold erase at ih ⊢
    by_cases hn : n = name
    · subst n
      simp [List.lookup_cons, beq_false_of_ne h]
    · simp [hn, List.lookup_cons, ih]

end Named

end LazyVectors
