import Mathlib.Data.List.Sublists
import LazyVectors.Proofs.LinearPlaces
import LazyVectors.Proofs.Setters
import LazyVectors.Proofs.Subsets
/-!
Parts of arrays. The elements, the extents and the labels along them are gathered apart from
each other; what ties them together is that the place of a combination of coordinates among all
of them is a column-major place again, in an array whose extents are the sizes of the
selections.
-/

set_option autoImplicit false

namespace LazyVectors

variable {ω : Type} [Foreign ω]

theorem getElem?_flatMap_blocks {α β : Type} {f : α → List β} {n : Nat}
    (hf : ∀ a, (f a).length = n) (as : List α) {j : Nat} (hj : j < n) (p : Nat) :
    (as.flatMap f)[j + n * p]? = as[p]?.bind fun a => (f a)[j]? := by
  induction as generalizing p with
  | nil => rfl
  | cons a as ih =>
    rw [List.flatMap_cons]
    cases p with
    | zero =>
      rw [Nat.mul_zero, Nat.add_zero, List.getElem?_append_left (by rw [hf a]; exact hj)]
      rfl
    | succ p =>
      have hblock : j + n * (p + 1) = (f a).length + (j + n * p) := by
        rw [hf a, Nat.mul_succ]
        omega
      rw [hblock, List.getElem?_append_right (Nat.le_add_right _ _), Nat.add_sub_cancel_left, ih p]
      rfl

namespace Selection

def sizes (s : Selection) : List Nat := (s.perDim.getD []).map List.length

def coordinates (perDim : List (List (Option Nat))) (js : List Nat) : List (Option Nat) :=
  List.zipWith (fun is j => is[j]?.join) perDim js

variable {ds cs js : List Nat} {perDim : List (List (Option Nat))}

theorem length_combinations (perDim : List (List (Option Nat))) :
    (combinations perDim).length = volume (perDim.map List.length) := by
  induction perDim with
  | nil => rfl
  | cons is rest ih =>
    simp only [combinations, List.length_flatMap, List.length_map, List.map_const',
      List.sum_replicate_nat, ih, List.map_cons, volume_cons, Nat.mul_comm]

/-- Where a combination stands among all of them is its place in an array of their sizes. -/
theorem getElem?_combinations (h : List.Forall₂ (· < ·) js (perDim.map List.length)) :
    (combinations perDim)[place (perDim.map List.length) js]? = some (coordinates perDim js) := by
  induction perDim generalizing js with
  | nil =>
    cases h
    rfl
  | cons is rest ih =>
    obtain ⟨j, js, hj, hjs, rfl⟩ := List.forall₂_cons_right_iff.1 h
    have hcons : ∀ c : List (Option Nat), (is.map (· :: c)).length = is.length := fun c =>
      List.length_map _
    rw [List.map_cons, place_cons, combinations, getElem?_flatMap_blocks hcons _ hj, ih hjs]
    simp only [Option.bind_some, List.getElem?_map, List.getElem?_eq_getElem hj, Option.map_some,
      coordinates, List.zipWith_cons_cons, Option.join_some]

theorem placeOf?_map_some (ds cs : List Nat) : placeOf? ds (cs.map some) = some (place ds cs) := by
  have hall : (cs.map some).mapM id = some cs := by
    induction cs with
    | nil => rfl
    | cons c cs ih =>
      rw [List.map_cons, List.mapM_cons, ih]
      rfl
  rw [placeOf?, hall]
  rfl

theorem placeOf?_eq_none (ds : List Nat) {c : List (Option Nat)} (h : none ∈ c) :
    placeOf? ds c = none := by
  have hnone : c.mapM id = none := by
    induction c with
    | nil => cases h
    | cons i c ih =>
      rw [List.mapM_cons]
      cases i with
      | none => rfl
      | some i =>
        rw [ih (by simpa using h)]
        rfl
  rw [placeOf?, hnone]
  rfl

theorem getElem?_offsets (hlen : ds.length = perDim.length)
    (h : List.Forall₂ (· < ·) js (perDim.map List.length)) :
    (offsets ds perDim)[place (perDim.map List.length) js]? =
      some (placeOf? ds (coordinates perDim js)) := by
  rw [offsets_eq hlen, List.getElem?_map, getElem?_combinations h]
  rfl

theorem length_offsets (hlen : ds.length = perDim.length) :
    (offsets ds perDim).length = volume (perDim.map List.length) := by
  rw [offsets_eq hlen, List.length_map, length_combinations]

theorem coordinates_lt (hwithin : Within ds perDim)
    (hjs : List.Forall₂ (· < ·) js (perDim.map List.length))
    (hcs : coordinates perDim js = cs.map some) : List.Forall₂ (· < ·) cs ds := by
  induction hwithin generalizing cs js with
  | nil =>
    cases hjs
    cases cs with
    | nil => exact .nil
    | cons => cases hcs
  | @cons d is ds rest his _ ih =>
    obtain ⟨j, js, hj, hrest, rfl⟩ := List.forall₂_cons_right_iff.1 hjs
    cases cs with
    | nil => cases hcs
    | cons c cs =>
      obtain ⟨hc, hcs⟩ := List.cons.inj hcs
      have hc : is[j]?.join = some c := hc
      rw [List.getElem?_eq_getElem hj, Option.join_some] at hc
      exact .cons (his c (hc ▸ List.getElem_mem hj)) (ih hrest hcs)

end Selection

theorem extentProduct_eq_volume {ds : List Nat}
    (h : ∀ k, volume (ds.take k) < UInt64.size) : extentProduct ds = some (volume ds) := by
  -- the product so far is what the induction over the extents is general in
  have hfold : ∀ p, (∀ k, p * volume (ds.take k) < UInt64.size) →
      ds.foldlM (fun p d => if p * d < UInt64.size then some (p * d) else none) p =
        some (p * volume ds) := by
    clear h
    induction ds with
    | nil =>
      intro p _
      simp [volume]
    | cons d ds ih =>
      intro p hp
      have hd : p * d < UInt64.size := by simpa [volume] using hp 1
      rw [List.foldlM_cons, if_pos hd]
      refine (ih (p * d) fun k => ?_).trans ?_
      · have hk := hp (k + 1)
        rwa [List.take_succ_cons, volume_cons, ← Nat.mul_assoc] at hk
      · rw [volume_cons, Nat.mul_assoc]
  simpa [extentProduct] using hfold 1 (by simpa using h)

abbrev LabelledExtents := List (Nat × Option (List (Option String)))

/-- The extents that remain, with the labels along them: with `drop`, all but those of one. -/
def remaining (drop : Bool) (extents : LabelledExtents) : LabelledExtents :=
  if drop then extents.filter (·.1 ≠ 1) else extents

theorem filter_eq_remaining (drop : Bool) (extents : LabelledExtents) :
    extents.filter (fun e => !drop || e.1 != 1) = remaining drop extents := by
  cases drop with
  | false => exact List.filter_true _
  | true =>
    refine List.filter_congr fun e _ => ?_
    by_cases he : e.1 = 1 <;> simp [he]

theorem remaining_sublist (drop : Bool) (extents : LabelledExtents) :
    (remaining drop extents).Sublist extents := by
  rw [← filter_eq_remaining]
  exact List.filter_sublist

theorem volume_remaining (drop : Bool) (extents : LabelledExtents) :
    volume ((remaining drop extents).map (·.1)) = volume (extents.map (·.1)) := by
  cases drop with
  | false => rfl
  | true =>
    rw [remaining, if_pos rfl]
    induction extents with
    | nil => rfl
    | cons e extents ih =>
      by_cases he : e.1 = 1
      · rw [List.filter_cons_of_neg (by simpa using he), ih, List.map_cons, volume_cons, he,
          Nat.one_mul]
      · rw [List.filter_cons_of_pos (by simpa using he), List.map_cons, volume_cons, ih,
          List.map_cons, volume_cons]

namespace Vec

/-- The labels along each extent of a part of an array: those along the extent of the whole, picked
by the selection along it. -/
def partLabels (v : Vec Value) (perDim : List (List (Option Nat))) :
    List (Option (List (Option String))) :=
  perDim.mapIdx fun k is => ((v.dimnames?.getD [])[k]?).join.map fun ns => is.map (Data.pick ns)

@[simp] theorem length_partLabels (v : Vec Value) (perDim : List (List (Option Nat))) :
    (v.partLabels perDim).length = perDim.length :=
  List.length_mapIdx

theorem length_of_mem_partLabels (v : Vec Value) {perDim : List (List (Option Nat))}
    {e : Nat × Option (List (Option String))} {ns : List (Option String)}
    (he : e ∈ (perDim.map List.length).zip (v.partLabels perDim)) (hns : e.2 = some ns) :
    ns.length = e.1 := by
  obtain ⟨k, hk⟩ := List.mem_iff_getElem?.1 he
  obtain ⟨hsize, hlabel⟩ := List.getElem?_zip_eq_some.1 hk
  rw [partLabels, List.getElem?_mapIdx, hns] at hlabel
  rw [List.getElem?_map] at hsize
  obtain ⟨is, his, hlabel⟩ := Option.map_eq_some_iff.1 hlabel
  obtain ⟨ms, -, rfl⟩ := Option.map_eq_some_iff.1 hlabel
  rw [his] at hsize
  rw [List.length_map]
  exact Option.some.inj hsize

theorem ExtentLabelsFit.length_labels {v : Vec Value} (hv : v.ExtentLabelsFit) {ds : List Nat}
    (hdim : v.dim? = some ds) {k d : Nat} {ns : List (Option String)}
    (hns : ((v.dimnames?.getD [])[k]?).join = some ns) (hd : ds[k]? = some d) : ns.length = d := by
  unfold dimnames? at hns
  split at hns
  · rename_i xs as c hx
    obtain ⟨ds', xs', as', c', hds', hxs, hlabels⟩ := hv _ hx
    rw [hdim] at hds'
    cases hds'
    cases hxs
    rw [Option.getD_some, List.getElem?_map] at hns
    obtain ⟨x, hxk, hxns⟩ : ∃ x, xs[k]? = some x ∧ extentNames? x = some ns := by
      cases hxk : xs[k]? with
      | none => simp [hxk] at hns
      | some x => exact ⟨x, rfl, by simpa [hxk] using hns⟩
    rcases List.forall₂_iff_get.1 hlabels with ⟨-, hget⟩
    obtain ⟨hkd, rfl⟩ := List.getElem?_eq_some_iff.1 hd
    obtain ⟨hkx, rfl⟩ := List.getElem?_eq_some_iff.1 hxk
    rcases hget k hkd hkx with hnull | ⟨ms, hms, hlen⟩
    · simp only [List.get_eq_getElem] at hnull
      rw [hnull] at hxns
      cases hxns
    · simp only [List.get_eq_getElem] at hms hlen
      rw [hxns] at hms
      cases hms
      exact hlen
  · simp at hns

theorem pickDimnames_eq {ls : List (Option (List (Option String)))} {ds : List Nat}
    {perDim : List (List (Option Nat))} (hwithin : Selection.Within ds perDim)
    (hls : ∀ (k d : Nat) (ns : List (Option String)), (ls[k]?).join = some ns →
      ds[k]? = some d → ns.length = d) :
    pickDimnames ls perDim =
      .ok (perDim.mapIdx fun k is => (ls[k]?).join.map fun ns => is.map (Data.pick ns)) := by
  induction hwithin generalizing ls with
  | nil => cases ls <;> rfl
  | @cons d is ds rest his _ ih =>
    have hls' : ∀ (k d : Nat) (ns : List (Option String)), (ls.tail[k]?).join = some ns →
        ds[k]? = some d → ns.length = d :=
      fun k d ns hns hd => hls (k + 1) d ns (by rw [← hns, List.getElem?_tail]) hd
    have hrest := ih hls'
    rw [pickDimnames, hrest, List.mapIdx_cons, ← List.head?_eq_getElem?]
    simp only [List.getElem?_tail]
    cases hns : ls.head?.join with
    | none => rfl
    | some ns =>
      have hlen : ns.length = d := hls 0 d ns (by rw [← List.head?_eq_getElem?, hns]) rfl
      dsimp only
      rw [pickNames_eq_ok fun i hi => hlen.symm ▸ his i hi]
      rfl

/-- The shape of a vector by the extents that remained of an array: two or more make it an array,
one at most only labels its elements. -/
structure ShapedBy (r : Vec Value) (extents : LabelledExtents) (labelled : Bool) : Prop where
  array : 2 ≤ extents.length → r.dim? = some (extents.map (·.1)) ∧
    r.dimnames? = (if labelled then some (extents.map (·.2)) else none) ∧
    r.attribute? "names" = none
  line : extents.length ≤ 1 → r.attribute? "dim" = none ∧ r.attribute? "dimnames" = none ∧
    r.names? = extents.head?.bind (·.2)
  others : ∀ name, name ∉ ["names", "dim", "dimnames"] → r.attribute? name = none

variable {d : Data Value} {extents : LabelledExtents} {labelled : Bool}

theorem ShapedBy.plain (hlen : extents.length ≤ 1) (hnone : extents.head?.bind (·.2) = none) :
    (ofData d).ShapedBy extents labelled where
  array h := by omega
  line _ := ⟨rfl, rfl, hnone.symm⟩
  others _ _ := rfl

theorem ShapedBy.labels {n : Nat} {ns : List (Option String)} :
    ((ofData d).putAttribute "names" (.vector (.ofStrings ns))).ShapedBy [(n, some ns)]
      labelled where
  array h := by simp at h
  line _ := ⟨rfl, rfl, rfl⟩
  others name hname := by
    rw [attribute?_putAttribute _ _ _ _ rfl, if_neg fun h => hname (by simp [h])]
    rfl

def asArray (d : Data Value) (ds : List Nat) : Vec Value :=
  (ofData d).putAttribute "dim" (.vector (.ofData (.integer (ds.map Int32.ofNat))))

theorem dim?_asArray {ds : List Nat} (hds : ∀ n ∈ ds, n < extentBound) :
    (asArray d ds).dim? = some ds :=
  (dim?_of_kept rfl).trans (congrArg some (map_keptExtent_eq_iff.2 hds))

theorem ShapedBy.array_plain (hlen : 2 ≤ extents.length)
    (hbound : ∀ n ∈ extents.map (·.1), n < extentBound) :
    (asArray d (extents.map (·.1))).ShapedBy extents false where
  array _ := ⟨dim?_asArray hbound, rfl, rfl⟩
  line h := by omega
  others name hname := by
    rw [asArray, attribute?_putAttribute _ _ _ _ rfl, if_neg fun h => hname (by simp [h])]
    rfl

def labelValue (l : Option (List (Option String))) : Value :=
  l.elim .null fun ns => .vector (.ofStrings ns)

theorem map_extentNames?_labelValue (ls : List (Option (List (Option String)))) :
    (ls.map labelValue).map extentNames? = ls := by
  rw [List.map_map]
  refine (List.map_congr_left fun l _ => ?_).trans (List.map_id ls)
  cases l <;> rfl

theorem extentLabels_eq_ok {k : Nat} {ds : List Nat} {ls : List (Option (List (Option String)))}
    {xs : List Value} (hlen : ls.length = ds.length) :
    extentLabels k ds ls = .ok xs ↔
      List.Forall₂ (fun d l => ∀ ns, l = some ns → ns.length = d) ds ls ∧
        xs = ls.map labelValue := by
  induction ls generalizing k ds xs with
  | nil =>
    obtain rfl := List.length_eq_zero_iff.1 hlen.symm
    simp [extentLabels, eq_comm]
  | cons l ls ih =>
    cases ds with
    | nil => cases hlen
    | cons d ds =>
      have hkept : ∀ y, (∃ ys, extentLabels (k + 1) ds ls = .ok ys ∧ y :: ys = xs) ↔
          List.Forall₂ (fun d l => ∀ ns, l = some ns → ns.length = d) ds ls ∧
            xs = y :: ls.map labelValue := fun y => by
        simp only [ih (Nat.succ.inj hlen), and_assoc, exists_and_left, exists_eq_left]
        exact and_congr_right fun _ => eq_comm
      rw [List.forall₂_cons]
      cases l with
      | none => exact map_eq_ok.trans ((hkept .null).trans (by simp [labelValue]))
      | some ns =>
        rw [extentLabels]
        split
        · rename_i hd
          obtain rfl := Option.some.inj hd
          exact map_eq_ok.trans ((hkept _).trans (by simp [labelValue]))
        · rename_i hd
          have hne : ns.length ≠ d := fun h => hd (congrArg some h.symm)
          simp [hne]

theorem extentLabels_eq (k : Nat)
    (hfit : ∀ e ∈ extents, ∀ ns, e.2 = some ns → ns.length = e.1) :
    extentLabels k (extents.map (·.1)) (extents.map (·.2)) =
      .ok ((extents.map (·.2)).map labelValue) := by
  refine (extentLabels_eq_ok (by simp)).2 ⟨?_, rfl⟩
  rw [List.forall₂_map_left_iff, List.forall₂_map_right_iff]
  exact List.forall₂_same.2 hfit

theorem ShapedBy.array_labels (hlen : 2 ≤ extents.length)
    (hbound : ∀ n ∈ extents.map (·.1), n < extentBound) :
    ((asArray d (extents.map (·.1))).putAttribute "dimnames"
      (.vector (.ofList ((extents.map (·.2)).map labelValue)))).ShapedBy extents true where
  array _ := by
    refine ⟨?_, ?_, rfl⟩
    · rw [dim?_congr (v := asArray d (extents.map (·.1)))
        (by rw [attribute?_putAttribute _ _ _ _ rfl, if_neg (by decide)]), dim?_asArray hbound]
    · exact congrArg some (map_extentNames?_labelValue (extents.map (·.2)))
  line h := by omega
  others name hname := by
    rw [attribute?_putAttribute _ _ _ _ rfl, if_neg fun h => hname (by simp [h]), asArray,
      attribute?_putAttribute _ _ _ _ rfl, if_neg fun h => hname (by simp [h])]
    rfl

theorem setDim_setDimnames (hproduct : extentProduct (extents.map (·.1)) = some d.length)
    (hbound : ∀ n ∈ extents.map (·.1), n < extentBound)
    (hfit : ∀ e ∈ extents, ∀ ns, e.2 = some ns → ns.length = e.1) :
    (ofData d).setDim (extents.map (·.1)) = .ok (asArray d (extents.map (·.1))) ∧
    (asArray d (extents.map (·.1))).setDimnames (extents.map (·.2)) =
      .ok ((asArray d (extents.map (·.1))).putAttribute "dimnames"
        (.vector (.ofList ((extents.map (·.2)).map labelValue)))) := by
  refine ⟨Setter.setDim_eq_ok.2 ⟨hproduct, rfl⟩, ?_⟩
  rw [setDimnames, dim?_asArray hbound]
  simp only [List.length_map, ne_eq, not_true_eq_false, if_false, extentLabels_eq 1 hfit]
  rfl

theorem subsetArray_eq_ok {v : Vec Value} {ss : List Subscript} {sel : Selection}
    {labels : List (Option (List (Option String)))} {kept : LabelledExtents} (drop : Bool)
    (hsel : Selection.ofArray v (v.dim?.getD []) ss = .ok sel)
    (hlabels : pickDimnames (v.dimnames?.getD []) (sel.perDim.getD []) = .ok labels)
    (hkept : remaining drop (sel.sizes.zip labels) = kept)
    (hproduct : extentProduct (kept.map (·.1)) = some sel.indices.length)
    (hbound : ∀ n ∈ kept.map (·.1), n < extentBound)
    (hfit : ∀ e ∈ kept, ∀ ns, e.2 = some ns → ns.length = e.1) :
    ∃ r, v.subsetArray ss drop = .ok r ∧ r.data = v.data.select sel.indices ∧
      r.ShapedBy kept (labels.any Option.isSome) := by
  rw [← filter_eq_remaining] at hkept
  rw [← Data.length_select v.data] at hproduct
  unfold Selection.sizes at hkept
  rw [subsetArray, hsel]
  simp only [bind, Except.bind, hlabels, hkept]
  generalize v.data.select sel.indices = d at hproduct
  have harray (hlen : 2 ≤ kept.length) : ∃ r, ((ofData d).setDim (kept.map (·.1)) >>= fun picked =>
      if labels.any Option.isSome then picked.setDimnames (kept.map (·.2)) else .ok picked) =
        .ok r ∧ r.data = d ∧ r.ShapedBy kept (labels.any Option.isSome) := by
    obtain ⟨hdim, hdimnames⟩ := setDim_setDimnames hproduct hbound hfit
    rw [hdim]
    cases labels.any Option.isSome with
    | false => exact ⟨_, rfl, rfl, .array_plain hlen hbound⟩
    | true => exact ⟨_, hdimnames, rfl, .array_labels hlen hbound⟩
  -- one extent at most needs its labels written, and no setter of extents
  rcases kept with _ | ⟨⟨n, _ | ns⟩, _ | ⟨e, rest⟩⟩
  · exact ⟨_, rfl, rfl, .plain (Nat.zero_le 1) rfl⟩
  · exact ⟨_, rfl, rfl, .plain (Nat.le_refl 1) rfl⟩
  · exact harray (by simp)
  · have hlen : ns.length = d.length := by
      rw [hfit _ List.mem_cons_self ns rfl, ← extentProduct_eq_some hproduct]
      exact (Nat.mul_one n).symm
    refine ⟨_, setNames_eq_ok.2 ⟨Nat.le_of_eq hlen, rfl⟩, rfl, ?_⟩
    rw [show (ofData d).length - ns.length = 0 by rw [hlen]; exact Nat.sub_self _,
      List.replicate_zero, List.append_nil]
    exact .labels
  · exact harray (by simp)

theorem subsetArray_of_fit {v : Vec Value} {ds : List Nat} {ss : List Subscript} {sel : Selection}
    (drop : Bool) (hdim : v.dim? = some ds) (hlabels : v.ExtentLabelsFit)
    (hsel : Selection.ofArray v ds ss = .ok sel) (hsizes : ∀ n ∈ sel.sizes, n < extentBound)
    (hproducts : ∀ ns : List Nat, ns.Sublist sel.sizes → volume ns < UInt64.size) :
    ∃ (perDim : List (List (Option Nat))) (r : Vec Value),
      sel = ⟨Selection.offsets ds perDim, v.length, [], some perDim⟩ ∧
      Selection.Within ds perDim ∧ v.subsetArray ss drop = .ok r ∧
      r.data = v.data.select sel.indices ∧
      r.ShapedBy (remaining drop (sel.sizes.zip (v.partLabels perDim)))
        ((v.partLabels perDim).any Option.isSome) := by
  obtain ⟨-, perDim, -, hwithin, rfl⟩ := Selection.ofArray_eq_ok hsel
  have hpicked : pickDimnames (v.dimnames?.getD []) perDim = .ok (v.partLabels perDim) :=
    pickDimnames_eq hwithin fun k d ns hns hd => hlabels.length_labels hdim hns hd
  have hzip : ((perDim.map List.length).zip (v.partLabels perDim)).map (·.1) =
      perDim.map List.length := List.map_fst_zip (by simp)
  have hkept : ((remaining drop ((perDim.map List.length).zip (v.partLabels perDim))).map
      (·.1)).Sublist (perDim.map List.length) := by
    have hsublist := (remaining_sublist drop
      ((perDim.map List.length).zip (v.partLabels perDim))).map (·.1)
    rwa [hzip] at hsublist
  have hproduct : extentProduct ((remaining drop ((perDim.map List.length).zip
      (v.partLabels perDim))).map (·.1)) = some (Selection.offsets ds perDim).length := by
    rw [extentProduct_eq_volume fun k => hproducts _ ((List.take_sublist k _).trans hkept),
      volume_remaining, hzip, Selection.length_offsets hwithin.length_eq]
  have hsel' : Selection.ofArray v (v.dim?.getD []) ss =
      .ok ⟨Selection.offsets ds perDim, v.length, [], some perDim⟩ := by
    rw [hdim]
    exact hsel
  obtain ⟨r, hr, hdata, hshape⟩ := subsetArray_eq_ok drop hsel' hpicked rfl hproduct
    (fun n hn => hsizes n (hkept.subset hn))
    (fun e he ns hns => v.length_of_mem_partLabels ((remaining_sublist drop _).subset he) hns)
  exact ⟨perDim, r, rfl, hwithin, hr, hdata, hshape⟩

end Vec

theorem extract_array (rs : ω) {v : Vec Value} {ds : List Nat} {ss : List Subscript}
    (hdim : v.dim? = some ds) (hds : 2 ≤ ds.length) (hss : ss.length = ds.length) (drop : Bool) :
    extract rs (.vector v) ss .subset drop = (v.subsetArray ss drop).map .vector := by
  rw [extract_vector, if_pos ((Vec.spans_iff hdim).2 ⟨hds, hss⟩)]

/-- `x[s₁, s₂, …]` for an array whose labels fit its extents. It succeeds, and the extents of what
it reads are the numbers of places selected along each extent. The element with the coordinates
`j₁, j₂, …` is the one of the array at the coordinates that stand at these places of the selections,
or a hole where one of them is missing. With `drop` the extents of one are left out. If two remain
at least, the result is an array with them and with the labels along them, each picked by its
selection; otherwise the elements are labelled by the labels along the extent that remains, if there
are any. There are no other attributes. -/
theorem array_extraction_pointwise (rs : ω) (v : Vec Value) (ds : List Nat)
    (ss : List Subscript) (sel : Selection) (drop : Bool) (hdim : v.dim? = some ds)
    (hds : 2 ≤ ds.length) (hproduct : extentProduct ds = some v.length)
    (hlabels : v.ExtentLabelsFit) (hsel : Selection.ofArray v ds ss = .ok sel)
    (hsizes : ∀ n ∈ sel.sizes, n < extentBound)
    (hproducts : ∀ ns : List Nat, ns.Sublist sel.sizes → volume ns < UInt64.size) :
    ∃ (perDim : List (List (Option Nat))) (r : Vec Value),
      sel.perDim = some perDim ∧ perDim.length = ds.length ∧
      extract rs (.vector v) ss .subset drop = .ok (.vector r) ∧
      r.kind = v.kind ∧ r.length = volume sel.sizes ∧
      (∀ js, List.Forall₂ (· < ·) js sel.sizes →
        (∀ cs, Selection.coordinates perDim js = cs.map some → List.Forall₂ (· < ·) cs ds ∧
          Selection.place ds cs < v.length ∧
          r.data.select [some (Selection.place sel.sizes js)] =
            v.data.select [some (Selection.place ds cs)]) ∧
        (none ∈ Selection.coordinates perDim js → r.HoleAt (Selection.place sel.sizes js))) ∧
      r.ShapedBy (remaining drop (sel.sizes.zip (v.partLabels perDim)))
        ((v.partLabels perDim).any Option.isSome) := by
  obtain ⟨perDim, r, rfl, hwithin, hr, hdata, hshape⟩ :=
    Vec.subsetArray_of_fit drop hdim hlabels hsel hsizes hproducts
  have hss : ss.length = ds.length := (Selection.ofArray_eq_ok hsel).1
  have hlen : ds.length = perDim.length := hwithin.length_eq
  have hvolume : volume ds = v.length := extentProduct_eq_some hproduct
  have hlength : r.length = volume (perDim.map List.length) := by
    rw [Vec.length, hdata, Data.length_select]
    exact Selection.length_offsets hlen
  refine ⟨perDim, r, rfl, hlen.symm, ?_, ?_, hlength, fun js hjs => ⟨fun cs hcs => ?_,
    fun hmissing => ?_⟩, hshape⟩
  · rw [extract_array rs hdim hds hss, hr]
    rfl
  · rw [Vec.kind, hdata, Data.kind_select]
    rfl
  · have hplace := Selection.getElem?_offsets hlen hjs
    rw [hcs, Selection.placeOf?_map_some] at hplace
    have hlt := Selection.coordinates_lt hwithin hjs hcs
    refine ⟨hlt, hvolume ▸ Selection.place_lt hlt, ?_⟩
    rw [hdata]
    exact Data.select_select_some hplace
  · have hplace := Selection.getElem?_offsets hlen hjs
    rw [Selection.placeOf?_eq_none ds hmissing] at hplace
    exact Vec.holeAt_of_data hdata hplace

def labelledCube : Vec Value where
  data := .integer [1, 2, 3, 4]
  attributes := some [("dim", .vector (.ofData (.integer [2, 1, 2]))),
    ("dimnames", .vector (.ofList [.vector (.ofStrings [some "r", some "s"]), .null,
      .vector (.ofStrings [some "a", some "b"])]))]
  complete := true

theorem extentLabelsFit_labelledCube : labelledCube.ExtentLabelsFit := by
  intro x hx
  cases hx
  exact ⟨[2, 1, 2], _, _, _, rfl, rfl,
    .cons (.inr ⟨_, rfl, rfl⟩) (.cons (.inl rfl) (.cons (.inr ⟨_, rfl, rfl⟩) .nil))⟩

/-- The second row, a missing one and the second row again, in the column "b". Only the rows remain
when the extents of one are dropped. -/
theorem array_extraction_pointwise_cube :
    (∃ r, extract ([] : Records) (.vector labelledCube)
        [.given (.vector (.ofData (.integer [2, Element.hole, 2]))), .omitted,
          .given (.vector (.ofStrings [some "b"]))] .subset true = .ok (.vector r) ∧
      r.data.select [some 2] = .integer [4] ∧ r.HoleAt 1 ∧ r.attribute? "dim" = none ∧
      r.names? = some [some "s", none, some "s"]) ∧
    ∃ r, extract ([] : Records) (.vector labelledCube)
        [.given (.vector (.ofData (.integer [2, Element.hole, 2]))), .omitted,
          .given (.vector (.ofStrings [some "b"]))] .subset false = .ok (.vector r) ∧
      r.dim? = some [3, 1, 1] ∧
      r.dimnames? = some [some [some "s", none, some "s"], none, some [some "b"]] := by
  have hsel : Selection.ofArray labelledCube [2, 1, 2]
      [.given (.vector (.ofData (.integer [2, Element.hole, 2]))), .omitted,
        .given (.vector (.ofStrings [some "b"]))] =
        .ok ⟨[some 3, none, some 3], 4, [], some [[some 1, none, some 1], [some 0], [some 1]]⟩ :=
    rfl
  have hproducts : ∀ ns : List Nat, ns.Sublist [3, 1, 1] → volume ns < UInt64.size := by
    intro ns hns
    have hall : ∀ ms ∈ [3, 1, 1].sublists, volume ms < UInt64.size := by decide
    exact hall ns (List.mem_sublists.2 hns)
  have hread := fun drop => array_extraction_pointwise ([] : Records) labelledCube [2, 1, 2] _ _
    drop rfl (by decide) rfl extentLabelsFit_labelledCube hsel (by decide) hproducts
  obtain ⟨perDim, r, hperDim, -, hr, -, -, helements, hshape⟩ := hread true
  cases hperDim
  obtain ⟨hdim, -, hnames⟩ := hshape.line (by decide)
  have hlast := (helements [2, 0, 0] (by decide)).1 [1, 0, 1] rfl
  refine ⟨⟨r, hr, hlast.2.2, (helements [1, 0, 0] (by decide)).2 (by decide), hdim, hnames⟩, ?_⟩
  obtain ⟨perDim, r, hperDim, -, hr, -, -, -, hshape⟩ := hread false
  cases hperDim
  obtain ⟨hdim, hdimnames, -⟩ := hshape.array (by decide)
  exact ⟨r, hr, hdim, hdimnames⟩

end LazyVectors
