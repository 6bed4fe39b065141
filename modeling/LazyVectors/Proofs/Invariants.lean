import LazyVectors.Proofs.InRange
import LazyVectors.Proofs.PathFrame
import LazyVectors.Proofs.Throughout
set_option autoImplicit false

namespace LazyVectors

variable {ω : Type} [Foreign ω]

/-- What is asked of values, foreign objects and subscripts, and the failures that are ruled
out. -/
structure Contract (ω : Type) where
  value : Value → Prop
  records : ω → Prop
  subscript : Subscript → Prop
  fault : Failure → Prop

namespace ExtractPlan

def Suits (s : Shape) : ExtractStrategy → Prop
  | .foreign => s.container = .foreign
  | .null => s.container = .null
  | .element => s.subscripts ≠ []
  | .path => s.recursive = true
  | .matrix => s.isMatrix = true
  | .subset | .field => True

theorem suits_strategyOf (s : Shape) : Sound Failure.Unexpected (Suits s) (strategyOf s) := by
  unfold strategyOf
  refine .ite (fun hforeign => hforeign) fun _ => ?_
  refine .ite (fun hnull => hnull) fun _ => ?_
  refine .ite (fun _ => .error (by simp)) fun _ => ?_
  refine .ite (fun _ => .ite (fun _ => trivial) fun _ => .error (by simp)) fun _ => ?_
  refine .ite (fun _ => .error (by simp)) fun hsubscripts => ?_
  refine .ite (fun hpath => hpath.2) fun _ => ?_
  refine .ite (fun harray => harray) fun _ => ?_
  refine .ite (fun _ => .error (by simp)) fun _ => ?_
  change Suits s (if s.mode = .element then _ else _)
  split
  · rename_i hmode
    exact fun hnil => hsubscripts ⟨hmode, hnil⟩
  · exact trivial

theorem sound_build (s : Shape) :
    Sound Failure.Unexpected (fun p => p.shape = s ∧ Suits s p.strategy) (build s) :=
  (suits_strategyOf s).map fun _ ht => ⟨rfl, ht⟩

end ExtractPlan

namespace ReplacePlan

theorem sound_build (s : Shape) :
    Sound Failure.Unexpected (fun p => p.shape = s ∧ Suits s p.strategy) (build s) :=
  (suits_strategyOf s).map fun _ ht => ⟨rfl, ht⟩

omit [Foreign ω] in
theorem sound_native {F : Failure → Prop} {P : Vec Value → Prop} {R : Value × ω → Prop}
    {rs : ω} {r : Noted (Vec Value)} (hr : Sound F P r.result)
    (hP : ∀ w, P w → R (.vector w, rs)) :
    Sound F R (do return (.vector (← r), rs) : Noted (Value × ω)).result := by
  rw [Noted.result_bind]
  exact hr.bind hP

end ReplacePlan

namespace Value

theorem sound_asContainer (x : Value) :
    Sound Failure.Unexpected (fun v => x = .vector v) x.asContainer := by
  cases x with
  | vector v => exact rfl
  | _ => exact .error (by simp)

theorem exists_foreign {x : Value} (h : x.kind = .foreign) : ∃ object, x = .foreign object := by
  cases x with
  | foreign object => exact ⟨object, rfl⟩
  | vector v =>
    have hvector : v.kind.isVector = true := Data.kind_isVector v.data
    rw [show v.kind = .foreign from h] at hvector
    cases hvector
  | _ => cases h

end Value

theorem Shape.exists_path {x : Value} {ss : List Subscript} {mode : Mode}
    (h : isPath x ss mode = true) : ∃ path, ss = [.given path] := by
  rcases ss with _ | ⟨_ | path, _ | ⟨s, ss⟩⟩
  · simp [isPath] at h
  · simp [isPath, Subscript.length?] at h
  · simp [isPath] at h
  · exact ⟨path, rfl⟩
  · simp [isPath] at h

namespace Contract

variable {c : Contract ω}

abbrev Made (c : Contract ω) (r : Except Failure (Vec Value)) : Prop :=
  Sound c.fault (fun w => c.value (.vector w)) r

/-- Every single operation keeps the contract. -/
structure Kept [Memory] (c : Contract ω) : Prop where
  fault : ∀ e, c.fault e → e.Unexpected
  plain : Value.Plain c.value
  step : ∀ d : Data Value, d.length = 1 → c.subscript (.given (.vector (.ofData d)))
  subset : ∀ {v : Vec Value} (ss : List Subscript), c.value (.vector v) → c.Made (v.subset ss)
  subsetArray : ∀ {v : Vec Value} (ss : List Subscript) (drop : Bool), c.value (.vector v) →
    (∀ s ∈ ss, c.subscript s) → c.Made (v.subsetArray ss drop)
  assign : ∀ {v : Vec Value} {sel : Selection} (value : Vec Value) (k : Kind),
    c.value (.vector v) → v.Aimed sel → c.Made (v.assign sel value k).result
  delete : ∀ {v : Vec Value} (ss : List Subscript) (mode : Mode), c.value (.vector v) →
    c.Made (v.delete ss mode)
  cast : ∀ {v : Vec Value} (k : Kind), c.value (.vector v) → c.Made (v.cast k).result
  read : ∀ {rs : ω} {object : String} (ss : List Subscript), c.records rs →
    c.value (.foreign object) → Sound c.fault (Value.Throughout c.value) (Foreign.read rs object ss)
  write : ∀ {rs : ω} {object : String} {x : Value} (ss : List Subscript), c.records rs →
    c.value (.foreign object) → Value.Throughout c.value x →
    Sound c.fault c.records (Foreign.write rs object ss x)

namespace Kept

open Value

variable [Memory] {rs : ω} {x y : Value} {v : Vec Value} {ss : List Subscript}
  {r : Except Failure (Vec Value)}

theorem ordinary {α : Type} {r : Except Failure α} (hc : c.Kept) (h : Ordinary r) :
    Sound c.fault (fun _ => True) r := h.avoids hc.fault

theorem error {α : Type} {P : α → Prop} {e : Failure} (hc : c.Kept) (h : e.Expected) :
    Sound c.fault P (.error e) := fun he => hc.fault e he h

omit [Foreign ω] [Memory] in
theorem throughout_of_made (hr : c.Made r) (hholds : ∀ w, r = .ok w → w.Holds c.value) :
    Sound c.fault (fun w => Throughout c.value (.vector w)) r :=
  hr.imp fun w hw hwhere => Vec.throughout_vector.2 ⟨hwhere, hholds w hw⟩

theorem throughout_subset (hc : c.Kept) (hv : Throughout c.value (.vector v)) :
    Sound c.fault (fun w => Throughout c.value (.vector w)) (v.subset ss) := by
  obtain ⟨here, hholds⟩ := Vec.throughout_vector.1 hv
  refine throughout_of_made (hc.subset ss here) fun w hw => ?_
  rcases Vec.subset_cases hw with rfl | ⟨is, hgathered⟩
  · exact hholds
  · exact hholds.gathered hc.plain hgathered

theorem throughout_subsetArray (hc : c.Kept) (hv : Throughout c.value (.vector v))
    (hss : ∀ s ∈ ss, c.subscript s) (drop : Bool) :
    Sound c.fault (fun w => Throughout c.value (.vector w)) (v.subsetArray ss drop) := by
  obtain ⟨here, hholds⟩ := Vec.throughout_vector.1 hv
  refine throughout_of_made (hc.subsetArray ss drop here hss) fun w hw => ?_
  obtain ⟨sel, -, hgathered⟩ := Vec.subsetArray_cases hw
  exact hholds.gathered hc.plain hgathered

theorem throughout_element? (hc : c.Kept) (hv : Throughout c.value (.vector v)) {i : Nat}
    (h : v.element? i = some y) : Throughout c.value y :=
  (Vec.throughout_vector.1 hv).2.element? hc.plain h

theorem throughout_subscript (hc : c.Kept) (hv : Throughout c.value (.vector v)) (s : Subscript) :
    Sound c.fault (Throughout c.value) (v.subscript s) := by
  refine (hc.ordinary (SingleIndex.ordinary_ofSubscript v s)).bind fun i _ => ?_
  cases i with
  | index i =>
    simp only
    split
    · rename_i y hy
      exact hc.throughout_element? hv hy
    · exact hc.error (by simp)
  | missing =>
    simp only
    split
    · exact hc.plain.throughout_null
    · refine hc.plain.throughout_ofData fun y hy => ?_
      rcases Data.mem_items_select hy with hy | rfl
      · exact (Vec.throughout_vector.1 hv).2.items y hy
      · exact hc.plain.throughout_null
  | notFound =>
    simp only
    split
    · exact hc.plain.throughout_null
    · exact hc.error (by simp)

theorem throughout_cell (hc : c.Kept) (hv : Throughout c.value (.vector v))
    (hss : ∀ s ∈ ss, c.subscript s) : Sound c.fault (Throughout c.value) (v.cell ss) := by
  refine (hc.throughout_subsetArray hv hss true).bind fun w hw => ?_
  split
  · split
    · rename_i y hy
      exact hc.throughout_element? hw hy
    · exact hc.error (by simp)
  · exact hc.error (by simp)

theorem throughout_field (hc : c.Kept) (hv : Throughout c.value (.vector v)) :
    Sound c.fault (Throughout c.value) (v.field ss) := by
  refine (hc.ordinary (ordinary_fieldName ss)).bind fun name _ => ?_
  change Throughout c.value (((findName (v.names?.getD []) name).bind v.element?).getD .null)
  cases hy : (findName (v.names?.getD []) name).bind v.element? with
  | none => exact hc.plain.throughout_null
  | some y =>
    obtain ⟨i, -, hi⟩ := Option.bind_eq_some_iff.1 hy
    exact hc.throughout_element? hv hi

theorem throughout_runWith (hc : c.Kept) {mode : Mode} {t : ExtractStrategy} {drop : Bool}
    {onPath : Vec Value → Value → Except Failure Value}
    (honPath : Shape.isPath x ss mode = true → ∀ {v : Vec Value} (path : Value),
      Throughout c.value (.vector v) → Sound c.fault (Throughout c.value) (onPath v path))
    (ht : ExtractPlan.Suits (.of x ss none mode) t) (hrs : c.records rs)
    (hx : Throughout c.value x) (hss : ∀ s ∈ ss, c.subscript s) :
    Sound c.fault (Throughout c.value)
      (ExtractPlan.runWith onPath ⟨.of x ss none mode, t⟩ rs x ss drop) := by
  -- what is no vector is read in its own way, whatever the plan
  cases x with
  | foreign object => exact hc.read ss hrs hx.here
  | null => exact hc.plain.throughout_null
  | symbol name => exact hc.error (by simp)
  | closure f => exact hc.error (by simp)
  | vector v =>
    have hvector : v.kind.isVector = true := Data.kind_isVector v.data
    unfold ExtractPlan.runWith ExtractPlan.runVector
    cases t with
    | foreign =>
      rw [show v.kind = .foreign from ht] at hvector
      cases hvector
    | null =>
      rw [show v.kind = .null from ht] at hvector
      cases hvector
    | subset => exact (hc.throughout_subset hx).map fun w hw => hw
    | matrix =>
      simp only
      split
      · exact hc.throughout_cell hx hss
      · exact (hc.throughout_subsetArray hx hss drop).map fun w hw => hw
    | element =>
      cases ss with
      | nil => exact absurd rfl ht
      | cons s ss => exact hc.throughout_subscript hx s
    | path =>
      obtain ⟨path, rfl⟩ := Shape.exists_path ht
      exact honPath ht path hx
    | field => exact hc.throughout_field hx

theorem throughout_extractStep (hc : c.Kept) (hrs : c.records rs) (hx : Throughout c.value x)
    {s : Subscript} (hs : c.subscript s) (hsingle : s.Single) :
    Sound c.fault (Throughout c.value) (extractStep rs x s) := by
  unfold extractStep
  refine ((ExtractPlan.sound_build _).weaken hc.fault).bind ?_
  rintro ⟨_, t⟩ ⟨rfl, ht⟩
  refine hc.throughout_runWith (fun hpath => ?_) ht hrs hx fun s' hs' => ?_
  · rw [Shape.isPath_eq_false fun _ _ => hsingle] at hpath
    cases hpath
  · rw [List.mem_singleton.1 hs']
    exact hs

/-- The steps of a path are subscripts of one element each. -/
abbrev Steps (c : Contract ω) (ss : List Subscript) : Prop := ∀ s ∈ ss, c.subscript s ∧ s.Single

theorem throughout_extractSteps (hc : c.Kept) (hrs : c.records rs) {level : Nat}
    (hx : Throughout c.value x) (hss : Steps c ss) :
    Sound c.fault (Throughout c.value) (extractSteps rs level x ss) := by
  induction ss generalizing level x with
  | nil => exact hx
  | cons s ss ih =>
    obtain ⟨hs, hsingle⟩ := hss s List.mem_cons_self
    cases ss with
    | nil => exact hc.throughout_extractStep hrs hx hs hsingle
    | cons t ss =>
      rw [extractSteps]
      refine (hc.ordinary (ordinary_checkLevel x level)).bind fun _ _ => ?_
      refine (hc.throughout_extractStep hrs hx hs hsingle).bind fun y hy => ?_
      exact ih hy fun s hs => hss s (List.mem_cons_of_mem _ hs)

theorem sound_steps (hc : c.Kept) (path : Value) : Sound c.fault (Steps c) path.steps := by
  unfold Value.steps
  split
  · rename_i v
    split
    · rename_i hatomic
      intro s hs
      rw [Vec.elements_of_atomic hatomic] at hs
      obtain ⟨x, hx, rfl⟩ := List.mem_map.1 hs
      obtain ⟨i, -, rfl⟩ := List.mem_map.1 hx
      have hone : (v.data.select [some i]).length = 1 := Data.length_select _ _
      refine ⟨hc.step _ hone, ?_⟩
      simp [Subscript.Single, Subscript.length?, Value.length, Vec.ofData, hone]
    · exact hc.error (by simp)
  · exact hc.error (by simp)

theorem throughout_extractPath (hc : c.Kept) (hrs : c.records rs) (path : Value)
    (hv : Throughout c.value (.vector v)) :
    Sound c.fault (Throughout c.value) (extractPath rs v path) :=
  (hc.sound_steps path).bind fun _ hsteps => hc.throughout_extractSteps hrs hv hsteps

/-- Reading keeps a contract that the operations on vectors keep. -/
theorem extract (hc : c.Kept) (hrs : c.records rs) (hx : Throughout c.value x)
    (hss : ∀ s ∈ ss, c.subscript s) (mode : Mode) (drop : Bool) :
    Sound c.fault (Throughout c.value) (LazyVectors.extract rs x ss mode drop) := by
  unfold LazyVectors.extract
  refine ((ExtractPlan.sound_build _).weaken hc.fault).bind ?_
  rintro ⟨_, t⟩ ⟨rfl, ht⟩
  exact hc.throughout_runWith (fun _ => hc.throughout_extractPath hrs) ht hrs hx hss

theorem throughout_assign (hc : c.Kept) (hv : Throughout c.value (.vector v)) {sel : Selection}
    (hsel : v.Aimed sel) {value : Vec Value}
    (hvalue : ∀ y ∈ value.data.items, Throughout c.value y) (k : Kind) :
    Sound c.fault (fun w => Throughout c.value (.vector w)) (v.assign sel value k).result := by
  obtain ⟨here, hholds⟩ := Vec.throughout_vector.1 hv
  exact throughout_of_made (hc.assign value k here hsel) fun w hw =>
    hholds.assign hc.plain hvalue hw

theorem throughout_delete (hc : c.Kept) (hv : Throughout c.value (.vector v)) (mode : Mode) :
    Sound c.fault (fun w => Throughout c.value (.vector w)) (v.delete ss mode) := by
  obtain ⟨here, hholds⟩ := Vec.throughout_vector.1 hv
  exact throughout_of_made (hc.delete ss mode here) fun w hw => hholds.delete hc.plain hw

theorem throughout_cast (hc : c.Kept) (hv : Throughout c.value (.vector v)) (k : Kind) :
    Sound c.fault (fun w => Throughout c.value (.vector w)) (v.cast k).result := by
  obtain ⟨here, hholds⟩ := Vec.throughout_vector.1 hv
  exact throughout_of_made (hc.cast k here) fun w hw => hholds.cast hc.plain hw

omit [Foreign ω] [Memory] in
theorem items_ofList (hx : Throughout c.value x) :
    ∀ y ∈ (Vec.ofList [x]).data.items, Throughout c.value y := by
  intro y hy
  rw [List.mem_singleton.1 hy]
  exact hx

omit [Foreign ω] [Memory] in
theorem items_asElements (hx : Throughout c.value x) :
    ∀ y ∈ x.asElements.data.items, Throughout c.value y := by
  cases x with
  | vector v => exact (Vec.throughout_vector.1 hx).2.items
  | null =>
    intro y hy
    cases hy
  | _ => exact items_ofList hx

theorem throughout_containerOf (hc : c.Kept) (hx : Throughout c.value x) {k : Kind}
    (hk : x.kind = .null → k.isVector = true) :
    Sound c.fault (fun w => Throughout c.value (.vector w)) (x.containerOf k) := by
  cases x with
  | vector v => exact hx
  | null =>
    have hvector : k.isVector = true := hk rfl
    unfold containerOf
    cases k with
    | null | symbol | closure | foreign => cases hvector
    | _ => exact hc.plain.throughout_ofData fun y hy => by cases hy
  | _ => exact hc.error (by simp)

theorem throughout_asMembers (hc : c.Kept) (hx : Throughout c.value x) :
    Sound c.fault (fun w => Throughout c.value (.vector w)) x.asMembers.result := by
  cases x with
  | vector v =>
    rw [asMembers]
    split
    · exact hx
    · rw [Noted.result_bind]
      exact hc.throughout_cast hx .list
  | null => exact hc.plain.throughout_ofList fun y hy => by cases hy
  | _ => exact hc.error (by simp)

omit [Memory] in
theorem aimed_ofSingle (v : Vec Value) (s : Subscript) :
    Sound Failure.Unexpected v.Aimed (Selection.ofSingle v s) := by
  refine Sound.bind s.ordinary_position fun p _ => ?_
  split
  · exact .error (by simp)
  · simp only
    split
    · exact .position p
    · exact .error (by simp)
    · exact .error (by simp)
    · exact .error (by simp)

theorem throughout_assignSubset (hc : c.Kept) (hx : Throughout c.value x)
    (hy : Throughout c.value y) {k : Kind} (hk : x.kind = .null → k.isVector = true) :
    Sound c.fault (fun w => Throughout c.value (.vector w)) (x.assignSubset ss y k).result := by
  have hrest : ∀ (v : Vec Value) (p : Position), Throughout c.value (.vector v) →
      Sound c.fault (fun w => Throughout c.value (.vector w))
        (if y.isNull then
          if (Selection.ofPosition v .replace p).indices.isEmpty then pure v
          else throw (.index .emptyReplacement)
        else v.assign (Selection.ofPosition v .replace p) y.asElements k :
          Noted (Vec Value)).result := by
    intro v p hv
    split
    · split
      · exact hv
      · exact hc.error (by simp)
    · exact hc.throughout_assign hv (.position p) (items_asElements hy) k
  unfold assignSubset
  rw [Noted.result_bind]
  refine (hc.throughout_containerOf hx hk).bind fun v hv => ?_
  cases ss with
  | nil =>
    simp only [Noted.result_bind]
    exact hrest v .everything hv
  | cons s ss =>
    simp only [Noted.result_bind]
    exact (hc.ordinary s.ordinary_position).bind fun p _ => hrest v p hv

theorem sound_singleElement (hc : c.Kept) (x : Value) (hy : Throughout c.value y) (k : Kind) :
    Sound c.fault (fun r => (∀ z ∈ r.1.data.items, Throughout c.value z) ∧ (r.2 = k ∨ r.2 = .list))
      (x.singleElement y k) := by
  unfold singleElement
  split
  · exact ⟨items_ofList hy, .inr rfl⟩
  split
  · exact ⟨items_asElements hy, .inl rfl⟩
  split
  · exact ⟨items_ofList hy, .inr rfl⟩
  split
  · exact hc.error (by simp)
  · exact hc.error (by simp)

theorem throughout_assignElement (hc : c.Kept) (hx : Throughout c.value x)
    (hy : Throughout c.value y) (s : Subscript) {k : Kind}
    (hk : x.kind = .null → k.isVector = true) :
    Sound c.fault (fun w => Throughout c.value (.vector w)) (x.assignElement s y k).result := by
  unfold assignElement
  rw [Noted.result_bind]
  refine (hc.sound_singleElement x hy k).bind fun r hr => ?_
  obtain ⟨elements, target⟩ := r
  obtain ⟨hitems, htarget⟩ := hr
  have htarget' (hnull : x.kind = .null) : target.isVector = true := by
    rcases htarget with rfl | rfl
    · exact hk hnull
    · rfl
  simp only [Noted.result_bind]
  refine (hc.throughout_containerOf hx htarget').bind fun v hv => ?_
  refine ((aimed_ofSingle v s).weaken hc.fault).bind fun sel hsel => ?_
  exact hc.throughout_assign hv hsel hitems target

theorem throughout_assignField (hc : c.Kept) (hx : Throughout c.value x)
    (hy : Throughout c.value y) :
    Sound c.fault (fun w => Throughout c.value (.vector w)) (x.assignField ss y).result := by
  unfold assignField
  simp only [Noted.result_bind]
  refine (hc.ordinary (ordinary_fieldName ss)).bind fun name _ => ?_
  refine (hc.throughout_asMembers hx).bind fun v hv => ?_
  exact hc.throughout_assign hv (.position _) (items_ofList hy) .list

theorem throughout_assignArray (hc : c.Kept) {mode : Mode} {value : Option Value}
    (harray : (Shape.of x ss value mode).isMatrix = true) (hx : Throughout c.value x)
    (hy : Throughout c.value y) (k : Kind) :
    Sound c.fault (fun w => Throughout c.value (.vector w)) (x.assignArray ss y k).result := by
  unfold assignArray
  simp only [Noted.result_bind]
  refine (x.sound_asContainer.weaken hc.fault).bind fun v hv => ?_
  subst x
  obtain ⟨ds, hds⟩ : ∃ ds, v.dim? = some ds := by
    cases hds : v.dim? with
    | some ds => exact ⟨ds, rfl⟩
    | none => simp [Shape.isMatrix, Shape.of, Value.vector?, hds] at harray
  rw [hds]
  refine Sound.bind (P := v.Aimed) ?_ fun sel hsel =>
    hc.throughout_assign hx hsel (items_asElements hy) k
  exact Avoids.sound (hc.ordinary (Selection.ordinary_ofArray v ds ss)) fun sel hsel =>
    .array hds hsel

abbrev Written (c : Contract ω) (r : Value × ω) : Prop :=
  Throughout c.value r.1 ∧ c.records r.2

theorem throughout_runWithReplace (hc : c.Kept) {mode : Mode} {t : ReplaceStrategy}
    {onPath : ω → Value → Value → Value → Noted (Value × ω)}
    (honPath : Shape.isPath x ss mode = true →
      ∀ path, Sound c.fault (Written c) (onPath rs x path y).result)
    (ht : ReplacePlan.Suits (.of x ss (some y) mode) t) (hrs : c.records rs)
    (hx : Throughout c.value x) (hy : Throughout c.value y) :
    Sound c.fault (Written c)
      (ReplacePlan.runWith onPath ⟨.of x ss (some y) mode, t⟩ rs x ss y).result := by
  have hnative {r : Noted (Vec Value)}
      (hr : Sound c.fault (fun w => Throughout c.value (.vector w)) r.result) :
      Sound c.fault (Written c) (do return (.vector (← r), rs) : Noted (Value × ω)).result :=
    ReplacePlan.sound_native hr fun w hw => ⟨hw, hrs⟩
  unfold ReplacePlan.runWith
  cases t with
  | foreign =>
    obtain ⟨object, rfl⟩ := exists_foreign ht
    simp only [Noted.result_bind]
    exact (hc.write ss hrs hx.here hy).bind fun rs' hrs' => ⟨hx, hrs'⟩
  | path =>
    obtain ⟨path, rfl⟩ := Shape.exists_path ht
    exact honPath ht path
  | unchanged => exact ⟨hx, hrs⟩
  | delete =>
    refine hnative ?_
    rw [Noted.result_bind]
    refine (x.sound_asContainer.weaken hc.fault).bind fun v hv => ?_
    exact hc.throughout_delete (hv ▸ hx) mode
  | field => exact hnative (hc.throughout_assignField hx hy)
  | matrix k => exact hnative (hc.throughout_assignArray ht hx hy k)
  | element k =>
    cases ss with
    | nil => exact absurd rfl ht.1
    | cons s ss => exact hnative (hc.throughout_assignElement hx hy s ht.2)
  | subset k => exact hnative (hc.throughout_assignSubset hx hy ht)

theorem throughout_replaceStep (hc : c.Kept) (hrs : c.records rs) (hx : Throughout c.value x)
    (hy : Throughout c.value y) {s : Subscript} (hsingle : s.Single) :
    Sound c.fault (Written c) (replaceStep rs x s y).result := by
  unfold replaceStep
  rw [Noted.result_bind]
  refine ((ReplacePlan.sound_build _).weaken hc.fault).bind ?_
  rintro ⟨_, t⟩ ⟨rfl, ht⟩
  refine hc.throughout_runWithReplace (fun hpath => ?_) ht hrs hx hy
  rw [Shape.isPath_eq_false fun _ _ => hsingle] at hpath
  cases hpath

theorem throughout_childAt (hc : c.Kept) (hx : Throughout c.value x) (s : Subscript)
    (level : Nat) : Sound c.fault (Throughout c.value) (childAt x s level) := by
  cases x with
  | vector v =>
    unfold childAt
    have hordinary := SingleIndex.ordinary_ofSubscript v s
    simp only
    split
    · split
      · rename_i hy
        exact hc.throughout_element? hx hy
      · exact hc.error (by simp)
    · exact hc.error (by simp)
    · exact hc.error (by simp)
    · rename_i e _ he
      rw [he] at hordinary
      exact hc.error (Failure.not_unexpected_iff.1 hordinary)
  | _ => exact hc.error (by simp)

theorem throughout_replaceSteps (hc : c.Kept) (hrs : c.records rs) {level : Nat}
    (hx : Throughout c.value x) (hy : Throughout c.value y) {last : Subscript}
    (hlast : last.Single) (hss : ∀ s ∈ ss, s.Single) :
    Sound c.fault (Written c) (replaceSteps rs level x last y ss).result := by
  induction ss generalizing level x with
  | nil => exact hc.throughout_replaceStep hrs hx hy hlast
  | cons s ss ih =>
    rw [replaceSteps]
    simp only [Noted.result_bind]
    refine (hc.ordinary (ordinary_checkLevel x level)).bind fun _ _ => ?_
    refine (hc.throughout_childAt hx s level).bind fun child hchild => ?_
    refine (ih hchild fun s hs => hss s (List.mem_cons_of_mem _ hs)).bind fun r hr => ?_
    exact hc.throughout_replaceStep hr.2 hx hr.1 (hss s List.mem_cons_self)

theorem throughout_replacePath (hc : c.Kept) (hrs : c.records rs) (hx : Throughout c.value x)
    (hy : Throughout c.value y) (path : Value) :
    Sound c.fault (Written c) (replacePath rs x path y).result := by
  unfold replacePath
  rw [Noted.result_bind]
  refine (hc.sound_steps path).bind fun steps hsteps => ?_
  split
  · exact hc.error (by simp)
  · rename_i last hlast
    exact hc.throughout_replaceSteps hrs hx hy (hsteps last (List.mem_of_getLast? hlast)).2
      fun s hs => (hsteps s ((List.dropLast_sublist _).subset hs)).2

/-- Writing keeps a contract that the operations on vectors keep. -/
theorem replace (hc : c.Kept) (hrs : c.records rs) (hx : Throughout c.value x)
    (hy : Throughout c.value y) (mode : Mode) :
    Sound c.fault (Written c) (LazyVectors.replace rs x ss y mode).result := by
  unfold LazyVectors.replace
  rw [Noted.result_bind]
  refine ((ReplacePlan.sound_build _).weaken hc.fault).bind ?_
  rintro ⟨_, t⟩ ⟨rfl, ht⟩
  exact hc.throughout_runWithReplace (fun _ => hc.throughout_replacePath hrs hx hy) ht hrs hx hy

end Kept

end Contract

end LazyVectors
