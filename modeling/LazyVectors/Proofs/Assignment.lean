import LazyVectors.Access.Replace
import LazyVectors.Proofs.Elements
import LazyVectors.Proofs.Sound
import LazyVectors.Proofs.Targets
set_option autoImplicit false

namespace LazyVectors

variable {ω : Type} [Foreign ω]

namespace Vec

theorem setNames_eq_ok {v w : Vec Value} {ns : List (Option String)} :
    v.setNames ns = .ok w ↔ ns.length ≤ v.length ∧ w = v.putAttribute "names"
      (.vector (.ofStrings (ns ++ List.replicate (v.length - ns.length) none))) := by
  unfold setNames
  split
  · rename_i hlong
    exact ⟨fun h => (nomatch h), fun h => absurd h.1 (by omega)⟩
  · rename_i hfits
    exact ⟨fun h => ⟨by omega, (Except.ok.inj h).symm⟩, fun h => congrArg _ h.2.symm⟩

@[simp] theorem data_removeAttribute (v : Vec Value) (name : String) :
    (v.removeAttribute name).data = v.data := by
  unfold removeAttribute
  split <;> rfl

@[simp] theorem data_clearDim (v : Vec Value) : v.clearDim.data = v.data := by
  simp [clearDim]

def grownNames (v : Vec Value) (sel : Selection) : Except Failure (List (Option String)) :=
  placeNames (resizeTo sel.length (some "") (v.names?.getD (List.replicate v.length (some ""))))
    sel.appended

/-- All that growing does: holes, no extents, and names if there were any or new ones come. -/
theorem grow_eq_ok [Memory] {v g : Vec Value} {sel : Selection} (h : v.grow sel = .ok g) :
    v.data.extendTo sel.length = .ok g.data ∧
    (v.names? = none ∧ sel.appended = [] ∧ g.attributes = v.clearDim.attributes ∨
      ¬(v.names? = none ∧ sel.appended = []) ∧
      ∃ ns, v.grownNames sel = .ok ns ∧ ns.length ≤ g.length ∧
        g.attributes = (v.clearDim.putAttribute "names" (.vector (.ofStrings
          (ns ++ List.replicate (g.length - ns.length) none)))).attributes) := by
  unfold grow at h
  obtain ⟨longer, hlonger, h⟩ := bind_eq_ok.1 h
  rw [data_clearDim] at hlonger
  simp only at h
  split at h
  · rename_i hnone
    cases h
    simp only [Bool.and_eq_true, Option.isNone_iff_eq_none, List.isEmpty_iff] at hnone
    exact ⟨hlonger, .inl ⟨hnone.1, hnone.2, rfl⟩⟩
  · rename_i hsome
    simp only [Bool.and_eq_true, Option.isNone_iff_eq_none, List.isEmpty_iff] at hsome
    obtain ⟨ns, hns, h⟩ := bind_eq_ok.1 h
    obtain ⟨hle, rfl⟩ := setNames_eq_ok.1 h
    exact ⟨hlonger, .inr ⟨hsome, ns, hns, hle, rfl⟩⟩

theorem store_eq_ok [Memory] {v w : Vec Value} {sel : Selection} {values : Data Value}
    (h : v.store sel values = .ok w) : ∃ room : Vec Value,
      (if sel.growsPast v.length then v.grow sel else .ok v) = .ok room ∧
      room.data.assignRecycled sel.targets values = .ok w.data ∧
      w.attributes = room.attributes := by
  unfold store at h
  simp only at h
  split at h
  · rename_i hgrows
    obtain ⟨room, hroom, h⟩ := bind_eq_ok.1 h
    obtain ⟨d, hd, h⟩ := bind_eq_ok.1 h
    cases h
    exact ⟨room, by rw [if_pos hgrows, hroom], hd, rfl⟩
  · rename_i hgrows
    obtain ⟨room, hroom, h⟩ := bind_eq_ok.1 h
    obtain ⟨d, hd, h⟩ := bind_eq_ok.1 h
    cases h
    exact ⟨room, by rw [if_neg hgrows, hroom], hd, rfl⟩

theorem result_assign [Memory] (v : Vec Value) (sel : Selection) (value : Vec Value)
    (target : Kind) : (v.assign sel value target).result = (do
      assignable sel value.length
      let v ← (v.cast target).result
      let values ← (value.data.cast target).result
      v.store sel values) := by
  unfold assign
  rw [Noted.result_bind, Noted.result_lift]
  congr 1
  funext _
  -- a warning about the lengths leaves the result as it is
  split
  · simp only [Noted.result_bind, Noted.result_lift]
    rfl
  · simp only [Noted.result_bind, Noted.result_lift]

theorem assign_eq_ok [Memory] {v w value : Vec Value} {sel : Selection} {target : Kind}
    (h : (v.assign sel value target).result = .ok w) :
    assignable sel value.length = .ok () ∧ ∃ (old : Vec Value) (values : Data Value),
      (v.cast target).result = .ok old ∧ (value.data.cast target).result = .ok values ∧
      old.store sel values = .ok w := by
  rw [result_assign] at h
  obtain ⟨u, hcan, h⟩ := bind_eq_ok.1 h
  obtain ⟨old, hold, h⟩ := bind_eq_ok.1 h
  obtain ⟨values, hvalues, h⟩ := bind_eq_ok.1 h
  exact ⟨hcan, old, values, hold, hvalues, h⟩

theorem pos_of_assignable {sel : Selection} {n : Nat} (h : assignable sel n = .ok ())
    (hts : sel.targets ≠ []) : 0 < n := by
  unfold assignable at h
  split at h
  · cases h
  · split at h
    · cases h
    · rename_i hzero
      refine Nat.pos_of_ne_zero fun hn => hzero ⟨hn, ?_⟩
      cases hi : sel.indices with
      | nil => exact absurd (by simp [Selection.targets, hi]) hts
      | cons _ _ => rfl

theorem store_within [Memory] {v : Vec Value} {sel : Selection} (hsel : sel.length = v.length)
    (values : Data Value) :
    v.store sel values = (v.data.assignRecycled sel.targets values).map fun d =>
      ⟨d, v.attributes, v.complete && !values.hasNA⟩ := by
  have hgrows : sel.growsPast v.length = false := by simp [Selection.growsPast, hsel]
  unfold store
  rw [hgrows]
  simp only [Bool.false_eq_true, if_false, Bool.not_false, Bool.and_true]
  change (v.data.assignRecycled sel.targets values >>= _) = _
  cases v.data.assignRecycled sel.targets values <;> rfl

theorem assign_exact [Memory] {v e : Vec Value} {sel : Selection} {ts : List Nat}
    (hsel : sel.indices = ts.map some) (hlen : sel.length = v.length)
    (hkind : e.kind = v.kind) (hcount : e.length = ts.length) {d : Data Value}
    (hd : v.data.assignRecycled ts e.data = .ok d) :
    v.assign sel e v.kind = .ok ⟨d, v.attributes, v.complete && !e.data.hasNA⟩ := by
  have htargets := Selection.targets_of_indices hsel
  have hcan : assignable sel e.length = .ok () := by
    have hpresent : sel.hasNA = false := by
      simp [Selection.hasNA, hsel]
    unfold assignable
    rw [hpresent, htargets, hcount, hsel]
    cases ts <;> simp
  have hwhole : (!sel.targets.isEmpty && sel.targets.length % e.length != 0) = false := by
    rw [htargets, hcount, Nat.mod_self]
    simp
  have hcast : v.cast v.kind = .ok v := if_pos rfl
  have hvalues : e.data.cast v.kind = .ok e.data := hkind ▸ Data.cast_self e.data
  have hstore : v.store sel e.data = .ok ⟨d, v.attributes, v.complete && !e.data.hasNA⟩ := by
    rw [store_within hlen, htargets, hd]
    rfl
  unfold assign
  rw [hcan, hwhole, hcast, hvalues]
  exact congrArg Noted.ofExcept hstore

theorem overwritten_of_store [Memory] {v w : Vec Value} {sel : Selection} {values : Data Value}
    (hsel : sel.length = Selection.reach v.length sel.targets)
    (hvalues : sel.targets ≠ [] → 0 < values.length) (h : v.store sel values = .ok w) :
    v.data.Overwritten sel.targets values w.data := by
  obtain ⟨room, hroom, hwritten, -⟩ := store_eq_ok h
  have hwritten := Data.writtenTo_of_assignRecycled hwritten
  split at hroom
  · obtain ⟨hlonger, -⟩ := grow_eq_ok hroom
    refine Data.overwritten_of_writtenTo (Data.kind_extendTo hlonger) ?_
      (Data.select_extendTo hlonger) hvalues hwritten
    rw [Data.length_extendTo hlonger, hsel, Selection.reach_eq_max]
    exact (Nat.max_assoc _ _ _).symm.trans (by rw [show v.length = v.data.length from rfl,
      Nat.max_self])
  · rename_i hfits
    cases hroom
    refine Data.overwritten_of_writtenTo rfl ?_ (fun _ => rfl) hvalues hwritten
    rw [← Selection.reach_eq_max]
    have hle := Selection.le_reach v.data.length sel.targets
    have hge : sel.length ≤ v.data.length := by
      simpa [Selection.growsPast, show v.length = v.data.length from rfl] using hfits
    rw [hsel, show v.length = v.data.length from rfl] at hge
    omega

theorem overwritten_of_assign [Memory] {v w value : Vec Value} {sel : Selection} {target : Kind}
    (hsel : sel.length = Selection.reach v.length sel.targets)
    (h : (v.assign sel value target).result = .ok w) :
    ∃ (old : Vec Value) (values : Data Value), (v.cast target).result = .ok old ∧
      (value.data.cast target).result = .ok values ∧
      old.data.Overwritten sel.targets values w.data := by
  obtain ⟨hcan, old, values, hold, hvalues, hstore⟩ := assign_eq_ok h
  have hlen : old.length = v.length :=
    (Data.kind_length_of_cast (Vec.cast_eq_ok hold).1).2
  refine ⟨old, values, hold, hvalues, overwritten_of_store (by rw [hlen, hsel]) ?_ hstore⟩
  intro hts
  have hpos := pos_of_assignable hcan hts
  rwa [show value.length = value.data.length from rfl,
    ← (Data.kind_length_of_cast hvalues).2] at hpos

end Vec

theorem Kind.promote_null (k : Kind) : Kind.null.promote k = k := if_pos (Nat.zero_le _)

theorem Kind.promote_of_le {a b : Kind} (h : b.rank ≤ a.rank) : a.promote b = a := by
  unfold promote
  split
  · rename_i hle
    exact rank_injective (Nat.le_antisymm h hle)
  · rfl

theorem Kind.list_promote {k : Kind} (hk : k.isVector = true) : Kind.list.promote k = .list := by
  cases k <;> first | rfl | cases hk

theorem Value.kind_ne_null {x : Value} (hx : x ≠ .null) : x.kind ≠ .null := by
  cases x with
  | null => exact absurd rfl hx
  | vector v =>
    intro h
    have hvec := Data.kind_isVector v.data
    rw [show v.data.kind = .null from h] at hvec
    cases hvec
  | _ => simp [Value.kind]

theorem Value.isNull_eq_false {x : Value} (hx : x ≠ .null) : x.isNull = false := by
  cases x with
  | null => exact absurd rfl hx
  | _ => rfl

namespace ReplacePlan

theorem targetKind_eq (c : Kind) {value : Value} (hvalue : value ≠ .null) :
    targetKind c value.kind = c.promote value.asElements.kind := by
  have helements : (if value.kind.isVector then value.kind else .list) =
      value.asElements.kind := by
    cases value with
    | vector v => exact if_pos (Data.kind_isVector v.data)
    | null => exact absurd rfl hvalue
    | _ => rfl
  unfold targetKind
  rw [if_neg (Value.kind_ne_null hvalue)]
  simp only [helements]
  split
  · rename_i hc
    rw [hc, Kind.promote_null]
  · rfl

theorem strategyOf_subset {s : Shape} {k : Kind} (hmode : s.mode = .subset)
    (hcontainer : s.container.isVector ∨ s.container = .null) (hvalue : s.value = some k)
    (hk : k ≠ .null) (hpath : s.recursive = false) : strategyOf s =
      if s.isMatrix then .ok (.matrix (targetKind s.container k))
      else if 1 < s.subscripts.length then .error (.index .wrongDimensions)
      else .ok (.subset (targetKind s.container k)) := by
  have hforeign : s.container ≠ .foreign := by
    rintro h
    rw [h] at hcontainer
    rcases hcontainer with h | h <;> cases h
  have hplain : ¬(!s.container.isVector && s.container != .null) = true := by
    rcases hcontainer with h | h <;> simp [h]
  unfold strategyOf
  simp [hvalue, hforeign, hplain, hpath, hk, hmode]

theorem isVector_targetKind_null {k : Kind} (hk : k ≠ .null) :
    (targetKind .null k).isVector = true := by
  unfold targetKind
  simp only [hk, if_false, if_true]
  split
  · assumption
  · rfl

/-- When a way to write is chosen at all. -/
def Suits (s : Shape) : ReplaceStrategy → Prop
  | .foreign => s.container = .foreign
  | .path => s.recursive = true
  | .unchanged => s.container = .null ∧ s.value.getD .null = .null
  | .delete => s.container = .list ∧ s.value.getD .null = .null
  | .field => True
  | .matrix _ => s.isMatrix = true
  | .element k => s.subscripts ≠ [] ∧ (s.container = .null → k.isVector = true)
  | .subset k => s.container = .null → k.isVector = true

theorem suits_strategyOf (s : Shape) : Sound Failure.Unexpected (Suits s) (strategyOf s) := by
  unfold strategyOf
  refine .ite (fun hforeign => hforeign) fun _ => ?_
  refine .ite (fun _ => .error (by simp)) fun _ => ?_
  refine .ite (fun hpath => hpath) fun _ => ?_
  refine .ite (fun hunchanged => hunchanged) fun hchanged => ?_
  refine .ite (fun hdelete => hdelete) fun _ => ?_
  refine .ite (fun _ => .error (by simp)) fun _ => ?_
  refine .ite (fun _ => trivial) fun _ => ?_
  refine .ite (fun _ => .error (by simp)) fun hsubscripts => ?_
  refine .ite (fun harray => harray) fun _ => ?_
  refine .ite (fun _ => .error (by simp)) fun _ => ?_
  change Suits s (if s.mode = .element then _ else _)
  have htarget (hnull : s.container = .null) :
      (targetKind s.container (s.value.getD .null)).isVector = true := by
    rw [hnull]
    exact isVector_targetKind_null fun hvalue => hchanged ⟨hnull, hvalue⟩
  split
  · rename_i hmode
    exact ⟨fun hnil => hsubscripts ⟨hmode, hnil⟩, htarget⟩
  · exact htarget

theorem suits_of_strategyOf {s : Shape} {t : ReplaceStrategy} (h : strategyOf s = .ok t) :
    Suits s t := by
  have hsuits := suits_strategyOf s
  rwa [h] at hsuits

end ReplacePlan

theorem replace_subset [Memory] (rs : ω) {x : Value} (p : Subscript) {value : Value}
    (hx : x.kind.isVector ∨ x.kind = .null) (hvalue : value ≠ .null) :
    replace rs x [p] value .subset = (do
      return (.vector (← x.assignSubset [p] value
        (x.kind.promote value.asElements.kind)), rs)) := by
  have hplan := ReplacePlan.strategyOf_subset (s := .of x [p] (some value) .subset) rfl hx rfl
    (Value.kind_ne_null hvalue) rfl
  rw [Shape.isMatrix_of_one rfl, show (Shape.of x [p] (some value) .subset).container = x.kind
    from rfl, ReplacePlan.targetKind_eq _ hvalue] at hplan
  unfold replace ReplacePlan.build
  rw [hplan]
  rfl

namespace Value

/-- The labels of a container; `NULL` has none. -/
def labels? (x : Value) : Option (List (Option String)) := x.vector?.bind Vec.names?

theorem containerOf_eq_ok {x : Value} {k : Kind} {v : Vec Value} (h : x.containerOf k = .ok v) :
    v.length = x.length ∧ v.names? = x.labels? ∧ (v.cast k).result = (x.cast k).result := by
  cases x with
  | null =>
    unfold containerOf at h
    cases hempty : Vec.empty? k with
    | none => simp [hempty] at h
    | some w =>
      simp only [hempty, Except.ok.injEq] at h
      subst w
      obtain ⟨d, hd, hv⟩ := Option.map_eq_some_iff.1 hempty
      obtain ⟨hkind, hlen⟩ := Data.kind_length_of_holes? hd
      subst v
      refine ⟨hlen, rfl, ?_⟩
      simp only [Value.cast, hempty]
      exact congrArg Noted.result (if_pos hkind)
  | vector w =>
    cases h
    exact ⟨rfl, rfl, rfl⟩
  | _ => cases h

theorem assignSubset_eq_ok [Memory] {x value : Value} {ss : List Subscript} {k : Kind}
    {w : Vec Value} (hvalue : value ≠ .null) (h : (x.assignSubset ss value k).result = .ok w) :
    ∃ (v : Vec Value) (q : Position), x.containerOf k = .ok v ∧
      ss.head?.elim (.ok .everything) Subscript.position = .ok q ∧
      (v.assign (Selection.ofPosition v .replace q) value.asElements k).result = .ok w := by
  unfold assignSubset at h
  simp only [Noted.result_bind, Noted.result_lift, isNull_eq_false hvalue, Bool.false_eq_true,
    if_false] at h
  obtain ⟨v, hv, h⟩ := bind_eq_ok.1 h
  cases ss with
  | nil => exact ⟨v, .everything, hv, rfl, h⟩
  | cons s rest =>
    simp only [Noted.result_bind, Noted.result_lift] at h
    obtain ⟨q, hq, h⟩ := bind_eq_ok.1 h
    exact ⟨v, q, hv, hq, h⟩

end Value

/-- `x[p] <- value` place by place: the container and the elements of the value are cast to the
higher of their kinds, and the elements, used over and over, are written in turn to the places
that the subscript aims at. -/
theorem subset_assignment_pointwise [Memory] (rs rs' : ω) (x : Value) (p : Subscript)
    (value y : Value) (hx : x.kind.isVector ∨ x.kind = .null) (hvalue : value ≠ .null)
    (h : (replace rs x [p] value .subset).result = .ok (y, rs')) :
    ∃ (w old : Vec Value) (values : Data Value) (q : Position),
      y = .vector w ∧ rs' = rs ∧ w.kind = x.kind.promote value.asElements.kind ∧
      (x.cast w.kind).result = .ok old ∧ old.length = x.length ∧
      (value.asElements.data.cast w.kind).result = .ok values ∧
      values.length = value.asElements.length ∧
      p.position = .ok q ∧
      (Selection.resolve x.length x.labels? .replace q).targets =
        p.aims x.length (x.labels?.getD []) ∧
      old.data.Overwritten (p.aims x.length (x.labels?.getD [])) values w.data := by
  rw [replace_subset rs p hx hvalue, Noted.result_bind] at h
  obtain ⟨w, hw, h⟩ := bind_eq_ok.1 h
  cases h
  obtain ⟨v, q, hv, hq, hassign⟩ := Value.assignSubset_eq_ok hvalue hw
  obtain ⟨hlen, hlabels, hcast⟩ := Value.containerOf_eq_ok hv
  obtain ⟨old, values, hold, hvalues, hover⟩ := Vec.overwritten_of_assign rfl hassign
  have htargets : (Selection.resolve x.length x.labels? .replace q).targets =
      p.aims x.length (x.labels?.getD []) := Selection.targets_eq_aims hq
  have holdData := Data.kind_length_of_cast (Vec.cast_eq_ok hold).1
  have hkind : w.kind = x.kind.promote value.asElements.kind := hover.kind.trans holdData.1
  have hsel : (Selection.ofPosition v .replace q).targets =
      p.aims x.length (x.labels?.getD []) := by
    rw [← htargets, ← hlen, ← hlabels]
    rfl
  rw [hsel] at hover
  refine ⟨w, old, values, q, rfl, rfl, hkind, ?_, holdData.2.trans hlen, ?_, ?_, hq, htargets,
    hover⟩
  · rw [hkind, ← hcast, hold]
  · rw [hkind, hvalues]
  · exact (Data.kind_length_of_cast hvalues).2

section

attribute [local instance] Memory.unbounded

/-- Two of three targets are one place past the end, and the value has the higher kind. -/
theorem subset_assignment_pointwise_repeated :
    (replace ([] : Records) (.vector (.ofData (.logical [some true, none])))
      [.given (.vector (.ofData (.integer [4, 1, 4])))]
      (.vector (.ofData (.integer [7, 8]))) .subset).result =
        .ok (.vector ⟨.integer [8, Element.hole, Element.hole, 7], none, false⟩, []) ∧
    ∃ old values : Data Value, old.Overwritten [3, 0, 3] values
      (.integer [8, Element.hole, Element.hole, 7]) := by
  refine ⟨rfl, ?_⟩
  obtain ⟨w, old, values, q, hy, -, -, -, -, -, -, -, -, hover⟩ :=
    subset_assignment_pointwise ([] : Records) [] (.vector (.ofData (.logical [some true, none])))
      (.given (.vector (.ofData (.integer [4, 1, 4])))) (.vector (.ofData (.integer [7, 8]))) _
      (.inl rfl) (by simp) rfl
  cases hy
  exact ⟨old.data, values, hover⟩

end

end LazyVectors
