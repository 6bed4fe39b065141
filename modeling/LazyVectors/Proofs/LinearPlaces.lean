import Mathlib.Algebra.Ring.Nat
import LazyVectors.Proofs.Arrays
import LazyVectors.Proofs.WholeDoubles
/-!
Arrays as vectors. An assignment along the extents of an array is one to the numbers of its
places, counted with the first coordinate varying fastest.
-/

set_option autoImplicit false

namespace LazyVectors

variable {ω : Type} [Foreign ω]

namespace Selection

/-- The place with the given coordinates. A step along an extent passes as many places as the
extents before it have. -/
def place (ds c : List Nat) : Nat := (List.zipWith (· * ·) c (ds.scanl (· * ·) 1)).sum

/-- All choices of one coordinate for each extent, the first varying fastest. -/
def combinations : List (List (Option Nat)) → List (List (Option Nat))
  | [] => [[]]
  | is :: rest => (combinations rest).flatMap fun c => is.map (· :: c)

def placeOf? (ds : List Nat) (c : List (Option Nat)) : Option Nat := (c.mapM id).map (place ds)

variable {ds c c' : List Nat} {perDim : List (List (Option Nat))}

theorem sum_zipWith_scanl (s : Nat) (ds c : List Nat) :
    (List.zipWith (· * ·) c (ds.scanl (· * ·) s)).sum = s * place ds c := by
  induction ds generalizing s c with
  | nil => cases c <;> simp [place, Nat.mul_comm]
  | cons d ds ih =>
    cases c with
    | nil => simp [place]
    | cons i c =>
      simp only [place, List.scanl_cons, List.zipWith_cons_cons, List.sum_cons, Nat.one_mul,
        Nat.mul_one]
      rw [ih (s * d), ih d, Nat.mul_add, Nat.mul_comm i s, Nat.mul_assoc]

theorem place_cons (d i : Nat) (ds c : List Nat) :
    place (d :: ds) (i :: c) = i + d * place ds c := by
  rw [place, List.scanl_cons, List.zipWith_cons_cons, List.sum_cons, sum_zipWith_scanl, Nat.mul_one,
    Nat.one_mul]

theorem place_lt (h : List.Forall₂ (· < ·) c ds) : place ds c < volume ds := by
  induction h with
  | nil => exact Nat.one_pos
  | @cons i d c ds hi _ ih =>
    rw [place_cons, volume_cons]
    exact add_mul_lt hi ih

/-- Coordinates within the extents are told apart by their place. -/
theorem place_inj (h : List.Forall₂ (· < ·) c ds) (h' : List.Forall₂ (· < ·) c' ds)
    (heq : place ds c = place ds c') : c = c' := by
  induction h generalizing c' with
  | nil =>
    cases h'
    rfl
  | @cons i d c ds hi _ ih =>
    cases h' with
    | @cons j _ c' _ hj hrest =>
      rw [place_cons, place_cons] at heq
      have hfirst : i = j := by
        have hmod := congrArg (· % d) heq
        simpa [Nat.add_mul_mod_self_left, Nat.mod_eq_of_lt hi, Nat.mod_eq_of_lt hj] using hmod
      subst hfirst
      have hpos : 0 < d := by omega
      rw [ih hrest (Nat.eq_of_mul_eq_mul_left hpos (by omega))]

theorem placeOf?_cons (d : Nat) (ds : List Nat) (i : Option Nat) (c : List (Option Nat)) :
    placeOf? (d :: ds) (i :: c) = (do some ((← i) + d * (← placeOf? ds c))) := by
  unfold placeOf?
  rw [List.mapM_cons]
  cases i with
  | none => rfl
  | some i =>
    cases c.mapM id with
    | none => rfl
    | some c => exact congrArg some (place_cons d i ds c)

theorem offsets_eq (h : ds.length = perDim.length) :
    offsets ds perDim = (combinations perDim).map (placeOf? ds) := by
  induction ds generalizing perDim with
  | nil =>
    rw [List.length_eq_zero_iff.1 h.symm]
    rfl
  | cons d ds ih =>
    cases perDim with
    | nil => cases h
    | cons is rest =>
      rw [offsets, combinations, ih (Nat.succ.inj h), List.flatMap_map, List.map_flatMap]
      congr 1
      funext c
      simp only [List.map_map, Function.comp_def, placeOf?_cons]

/-- The numbers, from one on, of the places that combinations of coordinates lead to; a missing one
where a coordinate is missing. -/
def placeNumbers (ds : List Nat) (perDim : List (List (Option Nat))) : List Double :=
  (combinations perDim).map fun c =>
    (placeOf? ds c).elim .na fun o => .ofInt ((o + 1 : Nat) : Int)

theorem ofNumbers_successors (os : List (Option Nat)) :
    Position.ofNumbers (os.map (Option.map fun o => ((o + 1 : Nat) : Int))) =
      .ok (if os.isEmpty then .nothing else .indices os) := by
  have hwanted : (os.map (Option.map fun o => ((o + 1 : Nat) : Int))).filterMap Position.wanted =
      os := by
    rw [List.filterMap_map]
    refine (Data.filterMap_congr_mem fun o _ => ?_).trans List.filterMap_some
    cases o <;> simp [Position.wanted]
  have hunwanted : (os.map (Option.map fun o => ((o + 1 : Nat) : Int))).filterMap
      Position.unwanted = [] := by
    rw [List.filterMap_map, List.filterMap_eq_nil_iff]
    intro o _
    cases o with
    | none => rfl
    | some o =>
      have hpositive : ¬((o + 1 : Nat) : Int) < 0 := by omega
      simp only [Function.comp_apply, Option.map_some, Position.unwanted, if_neg hpositive]
  simp only [Position.ofNumbers, hwanted, hunwanted, List.isEmpty_nil, if_true]

theorem position_placeNumbers (hlen : ds.length = perDim.length)
    (hlt : ∀ o, some o ∈ offsets ds perDim → o + 1 < 2 ^ 53) :
    (Subscript.given (.vector (.ofData (.double (placeNumbers ds perDim))))).position =
      .ok (if (offsets ds perDim).isEmpty then .nothing else .indices (offsets ds perDim)) := by
  have hnumbers : (placeNumbers ds perDim).map Position.ofDouble =
      (offsets ds perDim).map (Option.map fun o => ((o + 1 : Nat) : Int)) := by
    rw [offsets_eq hlen] at hlt ⊢
    rw [placeNumbers, List.map_map, List.map_map]
    refine List.map_congr_left fun c hc => ?_
    simp only [Function.comp_apply]
    cases ho : placeOf? ds c with
    | none => exact Position.ofDouble_na
    | some o =>
      exact Position.ofDouble_ofInt (hlt o (List.mem_map.2 ⟨c, hc, ho⟩))
  rw [← ofNumbers_successors, ← hnumbers]
  rfl

theorem ofPosition_indices {v : Vec Value} {os : List (Option Nat)}
    (hos : ∀ o, some o ∈ os → o < v.length) (purpose : Purpose) :
    ofPosition v purpose (if os.isEmpty then .nothing else .indices os) =
      ⟨os, v.length, [], none⟩ := by
  refine resolve_inside ?_ hos
  split
  · rename_i hempty
    rw [List.isEmpty_iff.1 hempty]
    rfl
  · refine congrArg (fun is => (⟨is, v.length, [], none⟩ : Selection))
      ((List.map_congr_left fun i hi => ?_).trans (List.map_id os))
    cases i with
    | none => simp
    | some o => simp [hos o hi]

end Selection

theorem replace_vector [Memory] (rs : ω) (v : Vec Value) (ss : List Subscript) {value : Value}
    (hvalue : value ≠ .null) : replace rs (.vector v) ss value .subset =
      if v.Spans ss then do
        return (.vector (← (Value.vector v).assignArray ss value
          (v.kind.promote value.asElements.kind)), rs)
      else if 1 < ss.length then .fail (.index .wrongDimensions)
      else do
        return (.vector (← (Value.vector v).assignSubset ss value
          (v.kind.promote value.asElements.kind)), rs) := by
  have hplan := ReplacePlan.strategyOf_subset (s := .of (.vector v) ss (some value) .subset) rfl
    (.inl (Data.kind_isVector v.data)) rfl (Value.kind_ne_null hvalue) rfl
  rw [Shape.isMatrix_of_vector, Shape.length_subscripts, ReplacePlan.targetKind_eq _ hvalue,
    show (Shape.of (.vector v) ss (some value) .subset).container = v.kind from rfl] at hplan
  unfold replace ReplacePlan.build
  rw [hplan]
  by_cases hspans : v.Spans ss
  · simp only [hspans, decide_true, if_true]
    rfl
  · by_cases hmany : 1 < ss.length
    · simp only [hspans, hmany, decide_false, Bool.false_eq_true, if_false, if_true]
      rfl
    · simp only [hspans, hmany, decide_false, Bool.false_eq_true, if_false]
      rfl

theorem replace_array [Memory] (rs : ω) {v : Vec Value} {ds : List Nat} {ss : List Subscript}
    {value : Value} (hdim : v.dim? = some ds) (hds : 2 ≤ ds.length) (hss : ss.length = ds.length)
    (hvalue : value ≠ .null) :
    replace rs (.vector v) ss value .subset = (do
      return (.vector (← (Value.vector v).assignArray ss value
        (v.kind.promote value.asElements.kind)), rs)) := by
  rw [replace_vector rs v ss hvalue, if_pos ((Vec.spans_iff hdim).2 ⟨hds, hss⟩)]

theorem assign_inside [Memory] {v w value : Vec Value} {sel : Selection} {k : Kind}
    (hsel : sel.length = v.length) (h : (v.assign sel value k).result = .ok w) :
    w.length = v.length ∧ w.attributes = v.attributes := by
  obtain ⟨-, old, values, hold, -, hstore⟩ := Vec.assign_eq_ok h
  obtain ⟨hdata, hattributes⟩ := Vec.cast_eq_ok hold
  have hlen : old.length = v.length := (Data.kind_length_of_cast hdata).2
  obtain ⟨room, hroom, hwritten, hsame⟩ := Vec.store_eq_ok hstore
  rw [if_neg (by simp [Selection.growsPast, hsel, hlen])] at hroom
  cases hroom
  have hkept := Data.length_of_writtenTo (Data.writtenTo_of_assignRecycled hwritten)
  exact ⟨Eq.trans hkept hlen, hsame.trans hattributes⟩

theorem assignArray_eq [Memory] {v : Vec Value} {ds : List Nat} {ss : List Subscript}
    {sel : Selection} (hdim : v.dim? = some ds) (hsel : Selection.ofArray v ds ss = .ok sel)
    (value : Value) (k : Kind) :
    (Value.vector v).assignArray ss value k = v.assign sel value.asElements k := by
  simp only [Value.assignArray, Value.asContainer, Noted.lift_ok_bind, hdim, Option.getD_some, hsel]

theorem assignArray_eq_ok [Memory] {v w : Vec Value} {ss : List Subscript} {value : Value}
    {k : Kind} (h : ((Value.vector v).assignArray ss value k).result = .ok w) :
    ∃ sel, Selection.ofArray v (v.dim?.getD []) ss = .ok sel ∧
      (v.assign sel value.asElements k).result = .ok w := by
  unfold Value.assignArray at h
  simp only [Noted.result_bind, Noted.result_lift] at h
  obtain ⟨u, hu, h⟩ := bind_eq_ok.1 h
  cases hu
  exact bind_eq_ok.1 h

theorem assignSubset_eq [Memory] {v : Vec Value} {p : Subscript} {q : Position} {value : Value}
    (hq : p.position = .ok q) (hvalue : value ≠ .null) (k : Kind) :
    (Value.vector v).assignSubset [p] value k =
      v.assign (Selection.ofPosition v .replace q) value.asElements k := by
  simp only [Value.assignSubset, Value.containerOf, Noted.lift_ok_bind, hq,
    Value.isNull_eq_false hvalue, Bool.false_eq_true, if_false]

/-- An assignment along the extents of an array does exactly what one to the numbers of its places
does, result or error, warnings included. Coordinates within the extents have places of their own
inside the vector, and the attributes stay, extents and labels along them among them. -/
theorem array_assignment_linear [Memory] (rs : ω) (v : Vec Value) (ds : List Nat)
    (ss : List Subscript) (sel : Selection) (value : Value) (hdim : v.dim? = some ds)
    (hds : 2 ≤ ds.length) (hproduct : extentProduct ds = some v.length)
    (hshort : v.length < 2 ^ 52) (hsel : Selection.ofArray v ds ss = .ok sel)
    (hvalue : value ≠ .null) :
    ∃ perDim, sel.perDim = some perDim ∧
      replace rs (.vector v) ss value .subset =
        replace rs (.vector v)
          [.given (.vector (.ofData (.double (Selection.placeNumbers ds perDim))))] value .subset ∧
      (∀ c, List.Forall₂ (· < ·) c ds → Selection.place ds c < v.length ∧
        ∀ c', List.Forall₂ (· < ·) c' ds → Selection.place ds c = Selection.place ds c' → c = c') ∧
      ∀ y rs', (replace rs (.vector v) ss value .subset).result = .ok (y, rs') →
        ∃ w : Vec Value, y = .vector w ∧ w.length = v.length ∧ w.attributes = v.attributes := by
  have hvolume : volume ds = v.length := extentProduct_eq_some hproduct
  obtain ⟨hss, perDim, -, hwithin, rfl⟩ := Selection.ofArray_eq_ok hsel
  have hlt : ∀ o, some o ∈ Selection.offsets ds perDim → o < v.length := fun o ho =>
    hvolume ▸ Selection.lt_of_mem_offsets hwithin ho
  have hposition := Selection.position_placeNumbers hwithin.length_eq fun o ho => by
    have := hlt o ho
    omega
  have hsame : replace rs (.vector v) ss value .subset = replace rs (.vector v)
      [.given (.vector (.ofData (.double (Selection.placeNumbers ds perDim))))] value .subset := by
    rw [replace_array rs hdim hds hss hvalue, assignArray_eq hdim hsel,
      replace_subset rs (x := .vector v) _ (.inl (Data.kind_isVector v.data)) hvalue,
      assignSubset_eq hposition hvalue, Selection.ofPosition_indices hlt]
    rfl
  refine ⟨perDim, rfl, hsame, fun c hc => ⟨hvolume ▸ Selection.place_lt hc, fun c' hc' =>
    Selection.place_inj hc hc'⟩, fun y rs' h => ?_⟩
  rw [replace_array rs hdim hds hss hvalue, assignArray_eq hdim hsel, Noted.result_bind] at h
  obtain ⟨w, hw, h⟩ := bind_eq_ok.1 h
  cases h
  exact ⟨w, rfl, assign_inside rfl hw⟩

def squareMatrix : Vec Value where
  data := .integer [1, 2, 3, 4]
  attributes := some [("dim", .vector (.ofData (.integer [2, 2])))]
  complete := true

section

attribute [local instance] Memory.unbounded

/-- The second row and one that is missing. -/
theorem array_assignment_linear_missingRow :
    replace ([] : Records) (.vector squareMatrix)
        [.given (.vector (.ofData (.integer [2, Element.hole]))), .omitted]
        (.vector (.ofData (.integer [9]))) .subset =
      replace ([] : Records) (.vector squareMatrix)
        [.given (.vector (.ofData (.double [.ofInt 2, .na, .ofInt 4, .na])))]
        (.vector (.ofData (.integer [9]))) .subset ∧
    ∃ w : Vec Value, (replace ([] : Records) (.vector squareMatrix)
        [.given (.vector (.ofData (.integer [2, Element.hole]))), .omitted]
        (.vector (.ofData (.integer [9]))) .subset).result = .ok (.vector w, []) ∧
      w.data = .integer [1, 9, 3, 9] ∧ w.attributes = squareMatrix.attributes := by
  have hsel : Selection.ofArray squareMatrix [2, 2]
      [.given (.vector (.ofData (.integer [2, Element.hole]))), .omitted] =
        .ok ⟨[some 1, none, some 3, none], 4, [], some [[some 1, none], [some 0, some 1]]⟩ := rfl
  obtain ⟨perDim, hperDim, hsame, -, hkept⟩ := array_assignment_linear ([] : Records) squareMatrix
    [2, 2] _ _ (.vector (.ofData (.integer [9]))) rfl (by decide) rfl (by decide) hsel (by simp)
  cases hperDim
  have hnumbers : Selection.placeNumbers [2, 2] [[some 1, none], [some 0, some 1]] =
      [.ofInt 2, .na, .ofInt 4, .na] := rfl
  rw [hnumbers] at hsame
  have hresult : (replace ([] : Records) (.vector squareMatrix)
      [.given (.vector (.ofData (.integer [2, Element.hole]))), .omitted]
      (.vector (.ofData (.integer [9]))) .subset).result =
        .ok (.vector ⟨.integer [1, 9, 3, 9], squareMatrix.attributes, true⟩, []) := rfl
  obtain ⟨w, hw, -, hattributes⟩ := hkept _ _ hresult
  cases hw
  exact ⟨hsame, _, hresult, rfl, hattributes⟩

end

end LazyVectors
