import LazyVectors.Value.Equality
set_option autoImplicit false

namespace LazyVectors

theorem pairwiseAll_refl {α : Type} {r : α → α → Bool} (hr : ∀ a, r a a = true) (as : List α) :
    pairwiseAll r as as = true := by
  induction as with
  | nil => rfl
  | cons a as ih => rw [pairwiseAll, hr, ih, Bool.and_self]

theorem Cplx.identical_refl (c : Cplx) : c.identical c = true := by
  rw [identical, Double.identical_refl, Double.identical_refl, Bool.and_self]

theorem Closure.same_refl (c : Closure) : c.same c = true := by simp [same]

mutual

theorem Value.same_refl : ∀ x : Value, x.same x = true
  | .null => rfl
  | .symbol name => beq_self_eq_true name
  | .vector v => Vec.same_refl v
  | .closure c => c.same_refl
  | .foreign object => beq_self_eq_true object

theorem Vec.same_refl : ∀ v : Vec Value, Vec.same v v = true
  | ⟨d, as, _⟩ => by rw [Vec.same, Data.same_refl d, Vec.sameAttributes_refl as, Bool.and_self]

theorem Data.same_refl : ∀ d : Data Value, d.same d = true
  | .logical xs => beq_self_eq_true xs
  | .integer xs => beq_self_eq_true xs
  | .double xs => pairwiseAll_refl Double.identical_refl xs
  | .complex xs => pairwiseAll_refl Cplx.identical_refl xs
  | .character xs => beq_self_eq_true xs
  | .list xs => Value.sameAll_refl xs

theorem Value.sameAll_refl : ∀ xs : List Value, Value.sameAll xs xs = true
  | [] => rfl
  | x :: xs => by rw [Value.sameAll, Value.same_refl x, Value.sameAll_refl xs, Bool.and_self]

theorem Vec.sameAttributes_refl :
    ∀ as : Option (List (String × Value)), Vec.sameAttributes as as = true
  | none => rfl
  | some as => Vec.sameEntries_refl as

theorem Vec.sameEntries_refl : ∀ as : List (String × Value), Vec.sameEntries as as = true
  | [] => rfl
  | a :: as => by rw [Vec.sameEntries, Vec.sameEntry_refl a, Vec.sameEntries_refl as, Bool.and_self]

theorem Vec.sameEntry_refl : ∀ a : String × Value, Vec.sameEntry a a = true
  | (name, x) => by rw [Vec.sameEntry, beq_self_eq_true, Value.same_refl x, Bool.and_self]

end

theorem Value.sameAll_set {xs : List Value} {i : Nat} {x y : Value} (hx : xs[i]? = some x)
    (h : y.same x = true) : Value.sameAll (xs.set i y) xs = true := by
  induction xs generalizing i with
  | nil => cases hx
  | cons z xs ih =>
    cases i with
    | zero =>
      cases hx
      rw [List.set_cons_zero, Value.sameAll, h, Value.sameAll_refl, Bool.and_self]
    | succ i => rw [List.set_cons_succ, Value.sameAll, Value.same_refl, ih hx, Bool.and_self]

theorem Vec.same_of_parts {v w : Vec Value} (hdata : w.data = v.data)
    (hattributes : w.attributes = v.attributes) : Vec.same w v = true := by
  obtain ⟨d, as, c⟩ := v
  obtain ⟨e, bs, c'⟩ := w
  subst hdata
  subst hattributes
  rw [Vec.same, Data.same_refl, Vec.sameAttributes_refl, Bool.and_self]

theorem Vec.same_of_set {v w : Vec Value} {xs : List Value} {i : Nat} {x y : Value}
    (hv : v.data = .list xs) (hx : xs[i]? = some x) (h : y.same x = true)
    (hw : w.data = .list (xs.set i y)) (hattributes : w.attributes = v.attributes) :
    Vec.same w v = true := by
  obtain ⟨d, as, c⟩ := v
  obtain ⟨e, bs, c'⟩ := w
  subst hv
  subst hw
  subst hattributes
  rw [Vec.same, Data.same, Value.sameAll_set hx h, Vec.sameAttributes_refl, Bool.and_self]

end LazyVectors
