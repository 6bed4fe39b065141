import LazyVectors.Proofs.Deletion
import LazyVectors.Proofs.Extraction
set_option autoImplicit false

namespace LazyVectors

namespace Data

variable {d c e : Data Value} {y : Value}

theorem items_of_kind_ne (h : d.kind ≠ .list) : d.items = [] := by
  cases d with
  | list xs => exact absurd rfl h
  | _ => rfl

theorem sizeOf_lt_of_mem_items (h : y ∈ d.items) : sizeOf y < sizeOf d := by
  cases d with
  | list xs =>
    have hlt := List.sizeOf_lt_of_mem (show y ∈ xs from h)
    rw [list.sizeOf_spec]
    omega
  | _ => cases h

theorem mem_items_select {is : List (Option Nat)} (h : y ∈ (d.select is).items) :
    y ∈ d.items ∨ y = .null := by
  cases d with
  | list xs =>
    obtain ⟨i, -, rfl⟩ := List.mem_map.1 h
    unfold pick
    cases hx : i.bind (xs[·]?) with
    | none => exact .inr rfl
    | some x =>
      obtain ⟨j, -, hj⟩ := Option.bind_eq_some_iff.1 hx
      exact .inl (List.mem_of_getElem? hj)
  | _ => cases h

theorem mem_items_extendTo [Memory] {n : Nat} (h : d.extendTo n = .ok e) (hy : y ∈ e.items) :
    y ∈ d.items ∨ y = .null := by
  rw [(extendTo_eq_ok h).2] at hy
  cases d with
  | list xs =>
    rcases List.mem_append.1 hy with hy | hy
    · exact .inl hy
    · exact .inr (List.mem_replicate.1 hy).2
  | _ => cases hy

theorem mem_of_mem_dropPlaces {α : Type} {x : α} {i : Nat} {ps : List Nat} {xs : List α}
    (h : x ∈ dropPlaces i ps xs) : x ∈ xs := by
  induction xs generalizing i ps with
  | nil => cases ps <;> cases h
  | cons z xs ih =>
    cases ps with
    | nil => exact h
    | cons p ps =>
      unfold dropPlaces at h
      split at h
      · exact List.mem_cons_of_mem _ (ih h)
      · rcases List.mem_cons.1 h with rfl | h
        · exact List.mem_cons_self
        · exact List.mem_cons_of_mem _ (ih h)

theorem mem_items_removeIndices {ps : List Nat} (h : y ∈ (d.removeIndices ps).items) :
    y ∈ d.items := by
  cases d with
  | list xs => exact mem_of_mem_dropPlaces h
  | _ => cases h

theorem mem_of_mem_overwrite {α : Type} {x : α} {sources xs : List α} {k : Nat} {ts : List Nat}
    (h : x ∈ overwrite sources xs k ts) : x ∈ xs ∨ x ∈ sources := by
  induction ts generalizing xs k with
  | nil => exact .inl h
  | cons t ts ih =>
    unfold overwrite at h
    split at h
    · rename_i s hs
      rcases ih h with h | h
      · rcases List.mem_or_eq_of_mem_set h with h | rfl
        · exact .inl h
        · exact .inr (List.mem_of_getElem? hs)
      · exact .inr h
    · exact .inl h

theorem mem_items_writtenTo {ts : List Nat} (h : WrittenTo d ts c e) (hy : y ∈ e.items) :
    y ∈ d.items ∨ y ∈ c.items := by
  obtain ⟨α, inst, make, xs, ss, hm, rfl, rfl, rfl, -⟩ := h
  exact hm.items xs ss _ (fun z hz => mem_of_mem_overwrite hz) y hy

/-- A cast makes no lists but lists of plain vectors. -/
theorem mem_items_cast {k : Kind} (h : (d.cast k).result = .ok e) (hy : y ∈ e.items) :
    y ∈ d.items ∨ ∃ c : Data Value, c.items = [] ∧ y = .vector (.ofData c) := by
  by_cases hk : e.kind = .list
  · have hklist : k = .list := (kind_length_of_cast h).1.symm.trans hk
    subst k
    by_cases hd : d.kind = .list
    · have hcast := cast_self d
      rw [hd] at hcast
      rw [hcast] at h
      cases h
      exact .inl hy
    · have helements : e = .list (Vec.ofData d).elements := by
        cases d with
        | list xs => exact absurd rfl hd
        | _ => exact (Except.ok.inj h).symm
      rw [helements] at hy
      change y ∈ (Vec.ofData d).elements at hy
      rw [elements_of_atomic d hd] at hy
      obtain ⟨i, -, rfl⟩ := List.mem_map.1 hy
      exact .inr ⟨_, items_of_kind_ne (by rwa [kind_select]), rfl⟩
  · rw [items_of_kind_ne hk] at hy
    cases hy

end Data

namespace Named

theorem mem_put {α : Type} {as : Named α} {name : String} {a b : α}
    (h : b ∈ (put as name a).map (·.2)) : b ∈ as.map (·.2) ∨ b = a := by
  induction as with
  | nil =>
    rcases List.mem_singleton.1 h with rfl
    exact .inr rfl
  | cons x as ih =>
    obtain ⟨n, c⟩ := x
    unfold put at h
    split at h
    · rcases List.mem_cons.1 h with rfl | h
      · exact .inr rfl
      · exact .inl (List.mem_cons_of_mem _ h)
    · rcases List.mem_cons.1 h with rfl | h
      · exact .inl List.mem_cons_self
      · rcases ih h with h | h
        · exact .inl (List.mem_cons_of_mem _ h)
        · exact .inr h

theorem sizeOf_lt_of_mem {α : Type} [SizeOf α] {as : Named α} {a : α} (h : a ∈ as.map (·.2)) :
    sizeOf a < sizeOf as := by
  obtain ⟨⟨name, b⟩, hb, rfl⟩ := List.mem_map.1 h
  have hlt := List.sizeOf_lt_of_mem hb
  rw [Prod.mk.sizeOf_spec] at hlt
  change sizeOf b < _
  omega

theorem mem_erase {α : Type} {as : Named α} {name : String} {b : α}
    (h : b ∈ (erase as name).map (·.2)) : b ∈ as.map (·.2) :=
  (List.eraseP_sublist.map _).subset h

end Named

namespace Vec

theorem ofList_eq (xs : List Value) : ofList xs = ofData (.list xs) := by
  have hcomplete : (Data.list xs).hasNA = false := by
    simp [Data.hasNA, Data.missing, Element.isNA]
  simp [ofList, ofData, hcomplete]

def attributeValues (v : Vec Value) : List Value := (v.attributes.getD []).map (·.2)

def parts (v : Vec Value) : List Value := v.data.items ++ v.attributeValues

end Vec

namespace Value

def parts : Value → List Value
  | .vector v => v.parts
  | .null | .symbol _ | .closure _ | .foreign _ => []

/-- A value has `P`, and so has everything in it. -/
inductive Throughout (P : Value → Prop) : Value → Prop
  | intro {x : Value} (here : P x) (parts : ∀ y ∈ x.parts, Throughout P y) : Throughout P x

theorem sizeOf_lt_of_mem_parts {x y : Value} (h : y ∈ x.parts) : sizeOf y < sizeOf x := by
  cases x with
  | vector v =>
    obtain ⟨d, as, c⟩ := v
    rw [vector.sizeOf_spec, Vec.mk.sizeOf_spec]
    rcases List.mem_append.1 h with h | h
    · have hlt := Data.sizeOf_lt_of_mem_items h
      change sizeOf y < sizeOf d at hlt
      omega
    · cases as with
      | none => cases h
      | some as =>
        have hlt := Named.sizeOf_lt_of_mem h
        rw [Option.some.sizeOf_spec]
        change sizeOf y < sizeOf as at hlt
        omega
  | _ => cases h

theorem throughout_of_forall {P : Value → Prop} (hP : ∀ x, P x) (x : Value) : Throughout P x :=
  .intro (hP x) fun y hy =>
    have := sizeOf_lt_of_mem_parts hy
    throughout_of_forall hP y
termination_by sizeOf x

structure Plain (P : Value → Prop) : Prop where
  null : P .null
  ofData : ∀ d : Data Value, P (.vector (.ofData d))

variable {P : Value → Prop} {x y : Value}

theorem Throughout.here (h : Throughout P x) : P x := by
  cases h
  assumption

theorem Throughout.part (h : Throughout P x) (hy : y ∈ x.parts) : Throughout P y := by
  cases h with
  | intro here parts => exact parts y hy

theorem Plain.throughout_null (hP : Plain P) : Throughout P .null :=
  .intro hP.null fun y hy => by cases hy

theorem Plain.throughout_ofData (hP : Plain P) {d : Data Value}
    (hd : ∀ y ∈ d.items, Throughout P y) : Throughout P (.vector (.ofData d)) :=
  .intro (hP.ofData d) fun y hy => by
    rcases List.mem_append.1 hy with hy | hy
    · exact hd y hy
    · cases hy

theorem Plain.throughout_ofList (hP : Plain P) {xs : List Value}
    (h : ∀ y ∈ xs, Throughout P y) : Throughout P (.vector (.ofList xs)) := by
  rw [Vec.ofList_eq]
  exact hP.throughout_ofData h

theorem Plain.throughout_ofStrings (hP : Plain P) (ns : List (Option String)) :
    Throughout P (.vector (.ofStrings ns)) :=
  hP.throughout_ofData fun y hy => by cases hy

end Value

namespace Vec

open Value

variable {P : Value → Prop} {v w : Vec Value}

/-- Everything in a vector has `P`, throughout. -/
structure Holds (P : Value → Prop) (v : Vec Value) : Prop where
  items : ∀ y ∈ v.data.items, Throughout P y
  attributes : ∀ y ∈ v.attributeValues, Throughout P y

theorem throughout_vector : Throughout P (.vector v) ↔ P (.vector v) ∧ v.Holds P := by
  constructor
  · intro h
    exact ⟨h.here, fun y hy => h.part (List.mem_append_left _ hy),
      fun y hy => h.part (List.mem_append_right _ hy)⟩
  · rintro ⟨here, items, attributes⟩
    refine .intro here fun y hy => ?_
    rcases List.mem_append.1 hy with hy | hy
    · exact items y hy
    · exact attributes y hy

namespace Holds

theorem ofData {d : Data Value} (hd : ∀ y ∈ d.items, Throughout P y) : (Vec.ofData d).Holds P :=
  ⟨hd, fun y hy => by cases hy⟩

theorem data (hv : v.Holds P) (hw : w.attributes = v.attributes)
    (hitems : ∀ y ∈ w.data.items, Throughout P y) : w.Holds P := by
  refine ⟨hitems, fun y hy => hv.attributes y ?_⟩
  unfold attributeValues at hy ⊢
  rwa [← hw]

theorem putAttribute (hv : v.Holds P) {name : String} {x : Value} (hx : Throughout P x) :
    (v.putAttribute name x).Holds P := by
  refine ⟨hv.items, fun y hy => ?_⟩
  change y ∈ (Attributes.put (v.attributes.getD []) name x).map (·.2) at hy
  unfold Attributes.put at hy
  split at hy
  · exact hv.attributes y (Named.mem_erase hy)
  · rcases Named.mem_put hy with hy | rfl
    · exact hv.attributes y hy
    · exact hx

theorem removeAttribute (hv : v.Holds P) (name : String) : (v.removeAttribute name).Holds P := by
  refine ⟨by rw [data_removeAttribute]; exact hv.items, fun y hy => hv.attributes y ?_⟩
  unfold attributeValues Vec.removeAttribute at hy
  unfold attributeValues
  cases has : v.attributes with
  | none =>
    rw [has] at hy
    simp [has] at hy
  | some as =>
    simp only [has] at hy
    split at hy
    · cases hy
    · exact Named.mem_erase hy

theorem clearDim (hv : v.Holds P) : v.clearDim.Holds P :=
  (hv.removeAttribute "dim").removeAttribute "dimnames"

variable (hP : Plain P)
include hP

theorem setNames (hv : v.Holds P) {ns : List (Option String)} (h : v.setNames ns = .ok w) :
    w.Holds P := by
  obtain ⟨-, rfl⟩ := setNames_eq_ok.1 h
  exact hv.putAttribute (hP.throughout_ofStrings _)

theorem setDim (hv : v.Holds P) {ds : List Nat} (h : v.setDim ds = .ok w) : w.Holds P := by
  unfold Vec.setDim at h
  split at h
  · cases h
  · split at h
    · cases h
      exact hv.putAttribute (hP.throughout_ofData fun y hy => by cases hy)
    · cases h

theorem throughout_extentLabels {k : Nat} {ds : List Nat}
    {ls : List (Option (List (Option String)))} {xs : List Value}
    (h : Vec.extentLabels k ds ls = .ok xs) : ∀ y ∈ xs, Throughout P y := by
  induction ls generalizing k ds xs with
  | nil =>
    cases h
    intro y hy
    cases hy
  | cons l ls ih =>
    cases l with
    | none =>
      obtain ⟨ys, hys, rfl⟩ := map_eq_ok.1 h
      intro y hy
      rcases List.mem_cons.1 hy with rfl | hy
      · exact hP.throughout_null
      · exact ih hys y hy
    | some ns =>
      rw [Vec.extentLabels] at h
      split at h
      · obtain ⟨ys, hys, rfl⟩ := map_eq_ok.1 h
        intro y hy
        rcases List.mem_cons.1 hy with rfl | hy
        · exact hP.throughout_ofStrings ns
        · exact ih hys y hy
      · cases h

theorem setDimnames (hv : v.Holds P) {ls : List (Option (List (Option String)))}
    (h : v.setDimnames ls = .ok w) : w.Holds P := by
  unfold Vec.setDimnames at h
  split at h
  · cases h
  · split at h
    · cases h
    · obtain ⟨xs, hxs, h⟩ := bind_eq_ok.1 h
      cases h
      exact hv.putAttribute (hP.throughout_ofList (throughout_extentLabels hP hxs))

theorem cast (hv : v.Holds P) {k : Kind} (h : (v.cast k).result = .ok w) : w.Holds P := by
  obtain ⟨hdata, hattributes⟩ := cast_eq_ok h
  refine hv.data hattributes fun y hy => ?_
  rcases Data.mem_items_cast hdata hy with hy | ⟨c, hc, rfl⟩
  · exact hv.items y hy
  · exact hP.throughout_ofData fun y hy => by simp [hc] at hy

theorem store [Memory] (hv : v.Holds P) {sel : Selection} {values : Data Value}
    (hvalues : ∀ y ∈ values.items, Throughout P y) (h : v.store sel values = .ok w) :
    w.Holds P := by
  obtain ⟨room, hroom, hwritten, hattributes⟩ := store_eq_ok h
  have hroomHolds : room.Holds P := by
    split at hroom
    · obtain ⟨hlonger, hgrown⟩ := grow_eq_ok hroom
      have hitems : ∀ y ∈ room.data.items, Throughout P y := fun y hy => by
        rcases Data.mem_items_extendTo hlonger hy with hy | rfl
        · exact hv.items y hy
        · exact hP.throughout_null
      rcases hgrown with ⟨-, -, hgrown⟩ | ⟨-, ns, -, -, hgrown⟩
      · exact hv.clearDim.data hgrown hitems
      · exact (hv.clearDim.putAttribute (hP.throughout_ofStrings _)).data hgrown hitems
    · cases hroom
      exact hv
  refine hroomHolds.data hattributes fun y hy => ?_
  rcases Data.mem_items_writtenTo (Data.writtenTo_of_assignRecycled hwritten) hy with hy | hy
  · exact hroomHolds.items y hy
  · exact hvalues y hy

theorem assign [Memory] (hv : v.Holds P) {sel : Selection} {value : Vec Value} {k : Kind}
    (hvalue : ∀ y ∈ value.data.items, Throughout P y)
    (h : (v.assign sel value k).result = .ok w) : w.Holds P := by
  obtain ⟨-, old, values, hold, hvalues, hstore⟩ := assign_eq_ok h
  refine (hv.cast hP hold).store hP (fun y hy => ?_) hstore
  rcases Data.mem_items_cast hvalues hy with hy | ⟨c, hc, rfl⟩
  · exact hvalue y hy
  · exact hP.throughout_ofData fun y hy => by simp [hc] at hy

theorem without (hv : v.Holds P) {places : List Nat} (h : v.without places = .ok w) :
    w.Holds P := by
  cases places with
  | nil =>
    cases h
    exact hv
  | cons d ds =>
    obtain ⟨hdata, hattributes⟩ := without_eq_ok h
    have hitems : ∀ y ∈ w.data.items, Throughout P y := fun y hy => by
      rw [hdata] at hy
      exact hv.items y (Data.mem_items_removeIndices hy)
    rcases hattributes with ⟨-, hattributes⟩ | ⟨ns, -, -, hattributes⟩
    · exact hv.clearDim.data hattributes hitems
    · exact (hv.clearDim.putAttribute (hP.throughout_ofStrings _)).data hattributes hitems

theorem delete (hv : v.Holds P) {ss : List Subscript} {mode : Mode}
    (h : v.delete ss mode = .ok w) : w.Holds P := by
  obtain ⟨p, -, hw⟩ := delete_eq_ok h
  exact hv.without hP hw

theorem gathered (hv : v.Holds P) {es : List Nat} {is : List (Option Nat)}
    (h : Gathered es (v.data.select is) w) : w.Holds P := by
  have hplain : (Vec.ofData (v.data.select is)).Holds P := ofData fun y hy => by
    rcases Data.mem_items_select hy with hy | rfl
    · exact hv.items y hy
    · exact hP.throughout_null
  cases h with
  | plain => exact hplain
  | labelled hnames => exact hplain.setNames hP hnames
  | array _ hdim => exact hplain.setDim hP hdim
  | labelledArray _ hdim hdimnames => exact (hplain.setDim hP hdim).setDimnames hP hdimnames

theorem element? (hv : v.Holds P) {i : Nat} {y : Value} (h : v.element? i = some y) :
    Throughout P y := by
  obtain ⟨d, as, c⟩ := v
  cases d with
  | list xs => exact hv.items y (List.mem_of_getElem? h)
  | _ =>
    simp only [Vec.element?] at h
    split at h
    · cases h
      exact hP.throughout_ofData fun y hy => by cases hy
    · cases h

end Holds

end Vec

end LazyVectors
