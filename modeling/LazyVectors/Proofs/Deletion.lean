import LazyVectors.Proofs.Assignment
set_option autoImplicit false

namespace LazyVectors

namespace Data

theorem length_dropPlaces_le {α : Type} (i : Nat) (ps : List Nat) (xs : List α) :
    (dropPlaces i ps xs).length ≤ xs.length := by
  induction xs generalizing i ps with
  | nil => cases ps <;> simp [dropPlaces]
  | cons x xs ih =>
    cases ps with
    | nil => simp [dropPlaces]
    | cons p ps =>
      unfold dropPlaces
      split
      · exact Nat.le_succ_of_le (ih _ _)
      · exact Nat.succ_le_succ (ih _ _)

theorem length_dropPlaces_lt {α : Type} (i p : Nat) (ps : List Nat) (xs : List α) (hi : i ≤ p)
    (hp : p < i + xs.length) : (dropPlaces i (p :: ps) xs).length < xs.length := by
  induction xs generalizing i with
  | nil =>
    simp only [List.length_nil] at hp
    omega
  | cons x xs ih =>
    unfold dropPlaces
    split
    · exact Nat.lt_succ_of_le (length_dropPlaces_le _ _ _)
    · refine Nat.succ_lt_succ (ih _ (by omega) ?_)
      rw [List.length_cons] at hp
      omega

end Data

/-- The position whose places `NULL` takes away: that of the subscript itself, or of a name. -/
def Subscript.deleting (s : Subscript) : Mode → Except Failure Position
  | .field => (fieldName [s]).map fun n => .named [some n]
  | .subset | .element => s.position

namespace Vec

/-- A list without the elements at ascending places, and without their names. -/
def without (v : Vec Value) (doomed : List Nat) : Except Failure (Vec Value) :=
  if doomed.isEmpty then .ok v
  else
    let rest := { v.clearDim with data := v.data.removeIndices doomed }
    match v.names? with
    | some ns => (rest.setNames (Data.dropPlaces 0 doomed ns)).map recomputeComplete
    | none => .ok rest.recomputeComplete

theorem delete_eq_ok {v w : Vec Value} {ss : List Subscript} {mode : Mode}
    (h : v.delete ss mode = .ok w) : ∃ p, (∀ s, ss = [s] → s.deleting mode = .ok p) ∧
      v.without (ascending (Selection.ofPosition v .extract p).targets) = .ok w := by
  have hrest : ∀ p, (if mode = .element ∧ 1 < (Selection.ofPosition v .extract p).indices.length
      then .error (.index .tooManySupplied)
      else v.without (ascending (Selection.ofPosition v .extract p).targets)) = .ok w →
        v.without (ascending (Selection.ofPosition v .extract p).targets) = .ok w := by
    intro p hp
    split at hp
    · cases hp
    · exact hp
  unfold delete at h
  split at h
  · cases h
  simp only at h
  split at h
  · obtain ⟨p, hp, h⟩ := bind_eq_ok.1 h
    refine ⟨p, fun s hs => ?_, hrest p h⟩
    subst hs
    exact hp
  · rename_i hmode _
    obtain ⟨p, hp, h⟩ := bind_eq_ok.1 h
    refine ⟨p, ?_, hrest p h⟩
    rintro _ ⟨⟩
    cases mode with
    | field => exact absurd rfl hmode
    | _ => exact hp
  · obtain ⟨p, -, h⟩ := bind_eq_ok.1 h
    exact ⟨p, fun s hs => (nomatch hs), hrest p h⟩

theorem without_eq_ok {v w : Vec Value} {d : Nat} {ds : List Nat}
    (h : v.without (d :: ds) = .ok w) : w.data = v.data.removeIndices (d :: ds) ∧
      (v.names? = none ∧ w.attributes = v.clearDim.attributes ∨
        ∃ ns, v.names? = some ns ∧ (Data.dropPlaces 0 (d :: ds) ns).length ≤ w.length ∧
          w.attributes = (v.clearDim.putAttribute "names" (.vector (.ofStrings
            (Data.dropPlaces 0 (d :: ds) ns ++ List.replicate
              (w.length - (Data.dropPlaces 0 (d :: ds) ns).length) none)))).attributes) := by
  simp only [without, List.isEmpty_cons, Bool.false_eq_true, if_false] at h
  split at h
  · rename_i ns hns
    obtain ⟨named, hnamed, rfl⟩ := map_eq_ok.1 h
    obtain ⟨hle, rfl⟩ := setNames_eq_ok.1 hnamed
    exact ⟨rfl, .inr ⟨ns, hns, hle, rfl⟩⟩
  · rename_i hns
    cases h
    exact ⟨rfl, .inl ⟨hns, rfl⟩⟩

theorem length_without_lt {v w : Vec Value} {d : Nat} {ds : List Nat} (hd : d < v.length)
    (h : v.without (d :: ds) = .ok w) : w.length < v.length := by
  have hdata := (without_eq_ok h).1
  have hlen : w.length = (v.data.removeIndices (d :: ds)).length := congrArg Data.length hdata
  have hd' : d < v.data.length := hd
  rw [hlen]
  unfold Data.removeIndices
  change (v.data.mapEach _).length < v.data.length
  cases hv : v.data with
  | _ xs =>
    rw [hv] at hd'
    exact Data.length_dropPlaces_lt 0 d ds xs (Nat.zero_le d) (by simpa [Data.length] using hd')

end Vec

end LazyVectors
