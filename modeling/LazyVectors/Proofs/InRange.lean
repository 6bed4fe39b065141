import LazyVectors.Proofs.Labels
import LazyVectors.Proofs.Shaped
import LazyVectors.Proofs.Sound
set_option autoImplicit false

namespace LazyVectors

theorem Position.ordinary_ofNumbers (ks : List (Option Int)) : Ordinary (ofNumbers ks) := by
  simp only [ofNumbers]
  split
  · exact .ok _
  split
  · exact .error (by simp)
  split
  · exact .error (by simp)
  · exact .ok _

theorem Subscript.ordinary_position (p : Subscript) : Ordinary p.position := by
  cases p with
  | omitted => exact .ok _
  | given x =>
    cases x with
    | null => exact .ok _
    | vector v =>
      obtain ⟨d, as, c⟩ := v
      cases d with
      | integer ks => exact Position.ordinary_ofNumbers _
      | double xs => exact Position.ordinary_ofNumbers _
      | logical bs => exact .ok _
      | character ls => exact .ok _
      | _ => exact .error (by simp)
    | _ => exact .error (by simp)

theorem ordinary_fieldName (ss : List Subscript) : Ordinary (fieldName ss) := by
  unfold fieldName
  split
  · split
    · exact .ok _
    · exact .error (by simp)
  · exact .error (by simp)

theorem ordinary_checkLevel (x : Value) (level : Nat) : Ordinary (x.checkLevel level) := by
  unfold Value.checkLevel
  split
  · exact .ok _
  split
  · exact .error (by simp)
  · exact .error (by simp)

theorem SingleIndex.ordinary_ofSubscript (v : Vec Value) (s : Subscript) :
    Ordinary (ofSubscript v s) := by
  refine s.ordinary_position.bind fun p _ => ?_
  have hindices : ∀ is, Ordinary (ofIndices is) := fun is => by
    unfold ofIndices
    split
    · exact .error (by simp)
    · exact .ok _
    · exact .ok _
    · exact .error (by simp)
  unfold ofPosition
  split
  · exact .error (by simp)
  · exact .ok _
  · split
    · exact .ok _
    · exact .ok _
  · exact .ok _
  · split
    · exact .ok _
    · exact .error (by simp)
  · exact hindices _

namespace Data

theorem ordinary_castAtomic (d : Data Value) (k : Kind) : Ordinary (d.castAtomic k).result := by
  unfold castAtomic
  split
  · exact .ok _
  · cases k with
    | null => exact .error (by simp)
    | symbol => exact .error (by simp)
    | closure => exact .error (by simp)
    | foreign => exact .error (by simp)
    | _ => exact .ok _

theorem ordinary_castItem (k : Kind) (x : Value) : Ordinary (castItem k x).result := by
  cases x with
  | vector v =>
    rw [castItem]
    split
    · exact ordinary_castAtomic _ k
    · exact .error (by simp)
  | _ => exact .error (by simp)

theorem ordinary_castItems {k : Kind} {done : Data Value} (hk : done.kind = k) (xs : List Value) :
    Ordinary (castItems k done xs).result := by
  induction xs generalizing done with
  | nil => exact .ok _
  | cons x xs ih =>
    rw [castItems, Noted.result_bind]
    refine (ordinary_castItem k x).bind fun d hd => ?_
    obtain ⟨more, hmore⟩ := exists_append? (hk.trans (kind_length_of_castItem hd).1.symm)
    rw [hmore]
    exact ih ((kind_length_of_append? hmore).1.trans hk)

theorem ordinary_cast (d : Data Value) (k : Kind) : Ordinary (d.cast k).result := by
  cases d with
  | list xs =>
    rw [cast]
    split
    · exact .ok _
    · split
      · rename_i hdone
        exact ordinary_castItems (kind_length_of_holes? hdone).1 _
      · exact .error (by simp)
  | logical xs => exact ordinary_castAtomic _ k
  | integer xs => exact ordinary_castAtomic _ k
  | double xs => exact ordinary_castAtomic _ k
  | complex xs => exact ordinary_castAtomic _ k
  | character xs => exact ordinary_castAtomic _ k

theorem ordinary_extendTo [Memory] (d : Data Value) (n : Nat) : Ordinary (d.extendTo n) := by
  unfold extendTo
  split
  · exact .error (by simp)
  split
  · exact .error (by simp)
  · exact .ok _

end Data

namespace Vec

variable {v w : Vec Value}

theorem ordinary_cast (v : Vec Value) (k : Kind) : Ordinary (v.cast k).result := by
  unfold Vec.cast
  split
  · exact .ok _
  · rw [Noted.result_bind]
    exact (Data.ordinary_cast _ _).bind fun d _ => .ok _

theorem ordinary_setNames (v : Vec Value) (ns : List (Option String)) :
    Ordinary (v.setNames ns) := by
  unfold setNames
  split
  · exact .error (by simp)
  · exact .ok _

theorem ordinary_setDim (v : Vec Value) (ds : List Nat) : Ordinary (v.setDim ds) := by
  unfold setDim
  split
  · exact .error (by simp)
  split
  · exact .ok _
  · exact .error (by simp)

theorem ordinary_extentLabels (k : Nat) (ds : List Nat)
    (ls : List (Option (List (Option String)))) : Ordinary (extentLabels k ds ls) := by
  induction ls generalizing k ds with
  | nil => exact .ok _
  | cons l ls ih =>
    cases l with
    | none => exact (ih _ _).map _
    | some ns =>
      rw [extentLabels]
      split
      · exact (ih _ _).map _
      · exact .error (by simp)

theorem ordinary_setDimnames (v : Vec Value) (ls : List (Option (List (Option String)))) :
    Ordinary (v.setDimnames ls) := by
  unfold setDimnames
  split
  · exact .error (by simp)
  split
  · exact .error (by simp)
  · exact (ordinary_extentLabels _ _ _).bind fun xs _ => .ok _

theorem ordinary_delete (v : Vec Value) (ss : List Subscript) (mode : Mode) :
    Ordinary (v.delete ss mode) := by
  have hrest : ∀ p : Position, Ordinary
      (if mode = .element ∧ 1 < (Selection.ofPosition v .extract p).indices.length
        then .error (.index .tooManySupplied)
        else v.without (ascending (Selection.ofPosition v .extract p).targets)) := by
    intro p
    split
    · exact .error (by simp)
    · unfold without
      split
      · exact .ok _
      · simp only
        split
        · exact (ordinary_setNames _ _).map _
        · exact .ok _
  unfold delete
  split
  · exact .error (by simp)
  simp only
  split
  · exact ((ordinary_fieldName _).map _).bind fun p _ => hrest p
  · exact (Subscript.ordinary_position _).bind fun p _ => hrest p
  · exact hrest .everything

section
variable {F : Failure → Prop}

theorem avoids_pickNames {ns : List (Option String)} {is : List (Option Nat)}
    (h : F (.internal .outOfRange) → ∀ i, some i ∈ is → i < ns.length) :
    Avoids F (pickNames ns is) := by
  by_cases hout : F (.internal .outOfRange)
  · rw [pickNames_eq_ok (h hout)]
    exact .ok _
  · unfold pickNames
    induction is with
    | nil => exact .ok _
    | cons i is ih =>
      have hrest := ih fun hF => absurd hF hout
      rw [List.mapM_cons]
      refine Avoids.bind ?_ fun n _ => hrest.bind fun rest _ => .ok _
      split
      · exact .ok _
      split
      · exact .ok _
      · exact hout

theorem avoids_subset (hF : ∀ e, F e → e.Unexpected)
    (hv : F (.internal .outOfRange) → v.Shaped) (ss : List Subscript) : Avoids F (v.subset ss) := by
  rcases ss with _ | ⟨_ | x, ss⟩
  · exact .ok _
  · exact .ok _
  · rw [subset]
    refine ((Subscript.ordinary_position _).avoids hF).bind fun q _ => ?_
    simp only
    split
    · exact .ok _
    · rename_i ns hns
      refine (avoids_pickNames fun hout i hi => ?_).bind fun picked _ =>
        (ordinary_setNames _ _).avoids hF
      rw [(hv hout).namesFit ns hns]
      exact Selection.lt_of_mem_extract (hv hout).namesFit.length_le hi

end

end Vec

theorem Selection.ordinary_alongExtent (n : Nat) (ns : Option (List (Option String)))
    (s : Subscript) : Ordinary (alongExtent n ns s) := by
  refine s.ordinary_position.bind fun q _ => ?_
  have hresolved : ∀ known : Bool, Ordinary (if known then
      if (resolve n ns .replace q).length > n then .error (.index .outOfBounds)
      else .ok (resolve n ns .replace q).indices
    else .error (.index .outOfBounds)) := by
    intro known
    split
    · split
      · exact .error (by simp)
      · exact .ok _
    · exact .error (by simp)
  exact hresolved _

theorem Selection.ordinary_alongExtents (ds : List Nat)
    (ls : List (Option (List (Option String)))) (ss : List Subscript) :
    Ordinary (alongExtents ds ls ss) := by
  induction ds generalizing ls ss with
  | nil => exact .ok _
  | cons d ds ih =>
    cases ss with
    | nil => exact .ok _
    | cons s ss =>
      exact (ordinary_alongExtent _ _ _).bind fun is _ => (ih _ _).bind fun rest _ => .ok _

theorem Selection.ordinary_ofArray (v : Vec Value) (ds : List Nat) (ss : List Subscript) :
    Ordinary (ofArray v ds ss) := by
  unfold ofArray
  split
  · exact .error (by simp)
  · exact (ordinary_alongExtents _ _ _).bind fun perDim _ => .ok _

namespace Vec

variable {v w : Vec Value} {F : Failure → Prop}

theorem Shaped.dims (hv : v.Shaped) {ds : List Nat} (h : v.dim? = some ds) :
    volume ds = v.length ∧ ∀ d ∈ ds, d < extentBound := by
  unfold dim? at h
  split at h
  · rename_i ks as c hx
    obtain ⟨ks', as', c', hks, hnonneg, hprod⟩ := hv.dim _ hx
    cases hks
    cases h
    refine ⟨extentProduct_eq_some hprod, fun d hd => ?_⟩
    obtain ⟨k, -, rfl⟩ := List.mem_map.1 hd
    have hlt := k.toInt_lt
    unfold extentBound
    omega
  · cases h

theorem length_of_labels {ds : List Nat} {xs : List Value} (h : List.Forall₂ Labels ds xs)
    {k d : Nat} {ns : List (Option String)} (hns : ((xs.map extentNames?)[k]?).join = some ns)
    (hd : ds[k]? = some d) : ns.length = d := by
  induction h generalizing k with
  | nil => simp at hd
  | cons hlabels _ ih =>
    cases k with
    | zero =>
      cases hd
      simp only [List.map_cons, List.getElem?_cons_zero, Option.join_some] at hns
      rcases hlabels with rfl | ⟨ms, hms, hlen⟩
      · cases hns
      · rw [hns] at hms
        cases hms
        exact hlen
    | succ k => exact ih (by simpa using hns) (by simpa using hd)

theorem Shaped.length_extentNames (hv : v.Shaped) {k d : Nat} {ns : List (Option String)}
    (hns : ((v.dimnames?.getD [])[k]?).join = some ns) (hd : (v.dim?.getD [])[k]? = some d) :
    ns.length = d := by
  cases hx : v.attribute? "dimnames" with
  | none =>
    have hnone : v.dimnames? = none := by
      unfold dimnames?
      rw [hx]
    simp [hnone] at hns
  | some x =>
    obtain ⟨ds, xs, as, c, hdim, rfl, hlabels⟩ := hv.dimnames x hx
    have hsome : v.dimnames? = some (xs.map extentNames?) := by
      unfold dimnames?
      rw [hx]
    rw [hsome] at hns
    rw [hdim] at hd
    exact length_of_labels hlabels hns hd

theorem avoids_pickDimnames {ds : List Nat} {perDim : List (List (Option Nat))}
    {ls : List (Option (List (Option String)))} (hwithin : Selection.Within ds perDim)
    (hls : F (.internal .outOfRange) → ∀ (k : Nat) (ns : List (Option String)) (d : Nat),
      (ls[k]?).join = some ns → ds[k]? = some d → ns.length = d) :
    Avoids F (pickDimnames ls perDim) := by
  induction hwithin generalizing ls with
  | nil => cases ls <;> exact .ok _
  | @cons d is ds rest his hrest ih =>
    rw [pickDimnames]
    have htail : ∀ picked, Avoids F (do
        return picked :: (← pickDimnames ls.tail rest) : Except Failure _) := fun picked =>
      (ih fun hout k ns d hns hd =>
        hls hout (k + 1) ns d (by rw [← hns, List.getElem?_tail]) hd).bind fun more _ => .ok _
    split
    · exact htail none
    · rename_i ns hns
      refine ((avoids_pickNames fun hout => ?_).map _).bind fun picked _ => htail picked
      have hlen : ns.length = d := hls hout 0 ns d (by rw [← List.head?_eq_getElem?, hns]) rfl
      exact hlen ▸ his

theorem avoids_subsetArray (hF : ∀ e, F e → e.Unexpected)
    (hv : F (.internal .outOfRange) → v.Shaped) (ss : List Subscript) (drop : Bool) :
    Avoids F (v.subsetArray ss drop) := by
  refine ((Selection.ordinary_ofArray _ _ _).avoids hF).bind fun sel hsel => ?_
  obtain ⟨-, perDim, -, hwithin, rfl⟩ := Selection.ofArray_eq_ok hsel
  refine (avoids_pickDimnames hwithin fun hout k ns d hns hd =>
    (hv hout).length_extentNames hns hd).bind fun labels _ => ?_
  simp only
  split
  · exact .ok _
  · exact .ok _
  · exact (ordinary_setNames _ _).avoids hF
  · refine ((ordinary_setDim _ _).avoids hF).bind fun a _ => ?_
    split
    · exact (ordinary_setDimnames _ _).avoids hF
    · exact .ok _

/-- A selection that comes from resolving subscripts against a vector to write to it. -/
inductive Aimed (v : Vec Value) : Selection → Prop
  | position (q : Position) : Aimed v (Selection.ofPosition v .replace q)
  | array {ds : List Nat} {ss : List Subscript} {sel : Selection} (hds : v.dim? = some ds)
    (hsel : Selection.ofArray v ds ss = .ok sel) : Aimed v sel

theorem Aimed.of_cast {sel : Selection} (h : Aimed v sel) {k : Kind}
    (hcast : (v.cast k).result = .ok w) : Aimed w sel := by
  obtain ⟨hdata, hattributes⟩ := cast_eq_ok hcast
  cases h with
  | position q =>
    rw [← ofPosition_of_cast hcast]
    exact .position q
  | @array ds ss _ hds hsel =>
    have hattribute := attribute?_congr hattributes
    have hlen : w.length = v.length := (Data.kind_length_of_cast hdata).2
    have hdimnames : w.dimnames? = v.dimnames? := by
      unfold dimnames?
      rw [hattribute]
    have harray : Selection.ofArray w ds ss = Selection.ofArray v ds ss := by
      unfold Selection.ofArray
      rw [hlen, hdimnames]
    exact .array ((dim?_congr (hattribute _)).trans hds) (harray.trans hsel)

theorem avoids_placeNames (hout : ¬F (.internal .outOfRange)) (ns : List (Option String))
    (places : List (Nat × Option String)) : Avoids F (placeNames ns places) := by
  induction places generalizing ns with
  | nil => exact .ok _
  | cons place places ih =>
    rw [placeNames]
    split
    · exact ih _
    · exact hout

theorem avoids_grow [Memory] (hF : ∀ e, F e → e.Unexpected)
    (hv : F (.internal .outOfRange) → v.NamesFit)
    (q : Position) : Avoids F (v.grow (Selection.ofPosition v .replace q)) := by
  unfold grow
  refine ((Data.ordinary_extendTo _ _).avoids hF).bind fun longer _ => ?_
  simp only
  split
  · exact .ok _
  · refine Avoids.bind (r := v.grownNames _) ?_ fun ns _ => (ordinary_setNames _ _).avoids hF
    by_cases hout : F (.internal .outOfRange)
    · rw [grownNames_ofPosition (hv hout)]
      exact .ok _
    · exact avoids_placeNames hout _ _

theorem avoids_assignElements {α : Type} {xs ss : List α} {ts : List Nat}
    (h : F (.internal .outOfRange) → ∀ t ∈ ts, t < xs.length) :
    Avoids F (Data.assignElements xs ts ss) := by
  unfold Data.assignElements
  split
  · exact .ok _
  · rename_i hfar
    refine fun hout => hfar ?_
    have hall : ts.all (· < xs.length) = true := by simpa using h hout
    rw [hall, Bool.or_true]

theorem avoids_assignRecycled {d c : Data Value} (hkind : c.kind = d.kind) {ts : List Nat}
    (h : F (.internal .outOfRange) → ∀ t ∈ ts, t < d.length) :
    Avoids F (d.assignRecycled ts c) := by
  rcases Data.assignRecycled_cases d c ts with ⟨α, inst, make, xs, ss, hm, rfl, rfl, hsame⟩ |
    ⟨hne, -⟩
  · rw [hsame]
    exact (avoids_assignElements fun hout t ht => hm.length xs ▸ h hout t ht).map _
  · exact absurd hkind hne

theorem avoids_store_within [Memory] {sel : Selection} {values : Data Value}
    (hfits : sel.growsPast v.length = false) (hkind : values.kind = v.kind)
    (htargets : F (.internal .outOfRange) → ∀ t ∈ sel.targets, t < v.length) :
    Avoids F (v.store sel values) := by
  unfold store
  simp only [hfits, Bool.false_eq_true, if_false]
  exact (avoids_assignRecycled hkind htargets).bind fun d _ => .ok _

theorem avoids_store [Memory] (hF : ∀ e, F e → e.Unexpected)
    (hv : F (.internal .outOfRange) → v.Shaped)
    {sel : Selection} (hsel : Aimed v sel) {values : Data Value} (hkind : values.kind = v.kind) :
    Avoids F (v.store sel values) := by
  cases hsel with
  | position q =>
    have htargets : ∀ t ∈ (Selection.ofPosition v .replace q).targets,
        t < (Selection.ofPosition v .replace q).length := fun t ht => Selection.lt_reach _ ht
    cases hgrows : (Selection.ofPosition v .replace q).growsPast v.length with
    | true =>
      unfold store
      simp only [hgrows, if_true]
      refine (avoids_grow hF (fun hout => (hv hout).namesFit) q).bind fun room hroom => ?_
      have hextended := (grow_eq_ok hroom).1
      have hlen := Data.length_extendTo hextended
      refine (avoids_assignRecycled ?_ fun _ t ht => ?_).bind fun d _ => .ok _
      · exact hkind.trans (Data.kind_extendTo hextended).symm
      · have := htargets t ht
        omega
    | false =>
      have hfits : (Selection.ofPosition v .replace q).length ≤ v.length := by
        simpa [Selection.growsPast] using hgrows
      exact avoids_store_within hgrows hkind fun _ t ht =>
        Nat.lt_of_lt_of_le (htargets t ht) hfits
  | array hds hsel =>
    refine avoids_store_within (by simp [Selection.growsPast, Selection.length_ofArray hsel]) hkind
      fun hout t ht => ?_
    have hlt := Selection.lt_of_mem_targets_ofArray hsel ht
    rwa [((hv hout).dims hds).1] at hlt

theorem ordinary_assignable (sel : Selection) (n : Nat) : Ordinary (assignable sel n) := by
  unfold assignable
  split
  · exact .error (by simp)
  split
  · exact .error (by simp)
  split
  · exact .error (by simp)
  · exact .ok _

theorem avoids_assign_of_store [Memory] (hF : ∀ e, F e → e.Unexpected) {sel : Selection}
    {value : Vec Value}
    {k : Kind} (hstore : ∀ (old : Vec Value) (values : Data Value), (v.cast k).result = .ok old →
      values.kind = old.kind → Avoids F (old.store sel values)) :
    Avoids F (v.assign sel value k).result := by
  rw [result_assign]
  refine ((ordinary_assignable _ _).avoids hF).bind fun _ _ => ?_
  refine ((ordinary_cast _ _).avoids hF).bind fun old hold => ?_
  refine ((Data.ordinary_cast _ _).avoids hF).bind fun values hvalues => hstore old values hold ?_
  exact (Data.kind_length_of_cast hvalues).1.trans
    (Data.kind_length_of_cast (cast_eq_ok hold).1).1.symm

theorem avoids_assign [Memory] (hF : ∀ e, F e → e.Unexpected)
    (hv : F (.internal .outOfRange) → v.Shaped)
    {sel : Selection} (hsel : Aimed v sel) (value : Vec Value) (k : Kind) :
    Avoids F (v.assign sel value k).result :=
  avoids_assign_of_store hF fun _ _ hold hkind =>
    avoids_store hF (fun hout => (hv hout).cast hold) (hsel.of_cast hold) hkind

end Vec

end LazyVectors
