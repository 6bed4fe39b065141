import LazyVectors.Proofs.ArrayParts
import LazyVectors.Proofs.CompleteFlag
import LazyVectors.Proofs.InPlace
import LazyVectors.Proofs.Sameness
import LazyVectors.Proofs.SingleReads
/-!
Writing back what was read. As many elements as there are places are written to them without a
warning, and elements that stand there already change nothing, along a path as little as in one
vector.
-/

set_option autoImplicit false

namespace LazyVectors

variable {ω : Type} [Foreign ω]

namespace Data

theorem Overwritten.unchanged {d e : Data Value} {ts : List Nat}
    (h : d.Overwritten ts (d.select (ts.map some)) e) (hts : ∀ t ∈ ts, t < d.length) : e = d := by
  have hlen := h.length_eq hts
  refine eq_of_select h.kind hlen fun i hi => ?_
  by_cases ht : i ∈ ts
  · obtain ⟨k, hk, hlast⟩ := exists_last ht
    have hlt : k < (d.select (ts.map some)).length := by
      rw [length_select, List.length_map]
      exact (List.getElem?_eq_some_iff.1 hk).1
    rw [(h.last k i hk hlast).2, Nat.mod_eq_of_lt hlt]
    exact select_select_some (by rw [List.getElem?_map, hk, Option.map_some])
  · exact h.kept i (hlen ▸ hi) ht

theorem assignRecycled_select {d : Data Value} {ts : List Nat} (hts : ∀ t ∈ ts, t < d.length) :
    d.assignRecycled ts (d.select (ts.map some)) = .ok d := by
  obtain ⟨e, he⟩ := assignRecycled_of_lt (d.kind_select (ts.map some)) hts
  have hover := overwritten_of_assignRecycled he hts fun hne => by
    rw [length_select, List.length_map]
    exact List.length_pos_iff.2 hne
  rw [he, hover.unchanged hts]

end Data

namespace Vec

variable {v e : Vec Value} {sel : Selection} {ts : List Nat}

/-- Elements that stand at their places already change nothing. -/
theorem assign_unchanged [Memory] (hsel : sel.indices = ts.map some) (hlen : sel.length = v.length)
    (hts : ∀ t ∈ ts, t < v.length) (he : e.data = v.data.select (ts.map some)) :
    v.assign sel e v.kind = .ok ⟨v.data, v.attributes, v.complete && !e.data.hasNA⟩ := by
  refine assign_exact hsel hlen ?_ ?_ ?_
  · rw [kind, he, Data.kind_select]
    rfl
  · rw [length, he, Data.length_select, List.length_map]
  · rw [he]
    exact Data.assignRecycled_select hts

theorem Gathered.data_eq {es : List Nat} {d : Data Value} {r : Vec Value}
    (h : Gathered es d r) : r.data = d := by
  cases h with
  | plain => rfl
  | labelled hnames => exact (sameElements_setNames hnames).data
  | array _ hdim => exact (sameElements_setDim hdim).data
  | labelledArray _ hdim hdimnames =>
    exact ((sameElements_setDim hdim).trans (sameElements_setDimnames hdimnames)).data

end Vec

variable {v : Vec Value} {ts : List Nat} {drop : Bool}

theorem subset_written_back [Memory] (rs : ω) (hv : v.NamesFit) {s : Subscript} {p : Position}
    (hp : s.position = .ok p)
    (hindices : (Selection.ofPosition v .extract p).indices = ts.map some)
    (hts : ∀ t ∈ ts, t < v.length) {r : Value}
    (h : extract rs (.vector v) [s] .subset drop = .ok r) :
    ∃ w : Vec Value, replace rs (.vector v) [s] r .subset = .ok (.vector w, rs) ∧
      w.data = v.data ∧ w.attributes = v.attributes := by
  obtain ⟨e, he, hdata⟩ := Vec.subset_eq_ok hv hp
  rw [extract_subset, he] at h
  cases h
  rw [hindices] at hdata
  obtain ⟨hwrite, -, hlen⟩ := Selection.within_of_present hindices hts
  have hkind : (Value.vector e).asElements.kind = v.kind := by
    change e.data.kind = v.data.kind
    rw [hdata, Data.kind_select]
  rw [replace_of_le rs hp (by simp) (Nat.le_of_eq (congrArg Kind.rank hkind)),
    show (Value.vector e).asElements = e from rfl, Vec.assign_unchanged hwrite hlen hts hdata]
  exact ⟨_, rfl, rfl, rfl⟩

theorem array_written_back [Memory] (rs : ω) {ds : List Nat} {ss : List Subscript} {sel : Selection}
    (hdim : v.dim? = some ds) (hds : 2 ≤ ds.length) (hss : ss.length = ds.length)
    (hsel : Selection.ofArray v ds ss = .ok sel) (hindices : sel.indices = ts.map some)
    (hts : ∀ t ∈ ts, t < v.length) {r : Value}
    (h : extract rs (.vector v) ss .subset drop = .ok r) :
    ∃ w : Vec Value, replace rs (.vector v) ss r .subset = .ok (.vector w, rs) ∧
      w.data = v.data ∧ w.attributes = v.attributes := by
  rw [extract_array rs hdim hds hss] at h
  obtain ⟨e, he, rfl⟩ := map_eq_ok.1 h
  obtain ⟨sel', hsel', hgathered⟩ := Vec.subsetArray_cases he
  rw [hdim, Option.getD_some, hsel] at hsel'
  cases hsel'
  have hdata : e.data = v.data.select (ts.map some) := hgathered.data_eq.trans (by rw [hindices])
  have hkind : v.kind.promote (Value.vector e).asElements.kind = v.kind := by
    change v.data.kind.promote e.data.kind = v.data.kind
    rw [hdata, Data.kind_select, Kind.promote_self]
  rw [replace_array rs hdim hds hss (by simp), assignArray_eq hdim hsel, hkind,
    show (Value.vector e).asElements = e from rfl,
    Vec.assign_unchanged hindices (Selection.length_ofArray hsel) hts hdata]
  exact ⟨_, rfl, rfl, rfl⟩

theorem replace_element [Memory] (rs : ω) {s : Subscript} (hs : v.kind ≠ .list ∨ s.Single)
    {y : Value} (hy : y ≠ .null) : replace rs (.vector v) [s] y .element = (do
      return (.vector (← (Value.vector v).assignElement s y
        (v.kind.promote y.asElements.kind)), rs)) := by
  have hplan := ReplacePlan.strategyOf_element (s := .of (.vector v) [s] (some y) .element) rfl
    (Data.kind_isVector v.data) rfl (Value.kind_ne_null hy) rfl (Shape.isPath_of_element hs)
  rw [show (Shape.of (.vector v) [s] (some y) .element).container = v.kind from rfl,
    ReplacePlan.targetKind_eq _ hy] at hplan
  unfold replace ReplacePlan.build
  rw [hplan]
  rfl

theorem Value.singleElement_of_element? {i : Nat} {y : Value} (hy : v.element? i = some y) :
    ∃ e : Vec Value, (Value.vector v).singleElement y (v.kind.promote y.asElements.kind) =
      .ok (e, v.kind) ∧ e.data = v.data.select [some i] := by
  by_cases hlist : v.kind = .list
  · obtain ⟨xs, hxs⟩ := Data.eq_list_of_kind hlist
    have hkind : v.kind.promote y.asElements.kind = .list := by
      rw [hlist]
      exact Kind.list_promote (Data.kind_isVector _)
    refine ⟨.ofList [y], ?_, (Vec.elementAt_of_list (i := some i) hxs hy).symm⟩
    rw [hkind, hlist]
    rfl
  · have hbare := Vec.elementAt_of_atomic (i := some i) hlist hy
    have hkind : v.kind.promote y.asElements.kind = v.kind := by
      rw [hbare]
      change v.data.kind.promote (v.data.select [some i]).kind = v.data.kind
      rw [Data.kind_select, Kind.promote_self]
    refine ⟨.ofData (v.data.select [some i]), ?_, rfl⟩
    have hone : ((Value.vector (.ofData (v.data.select [some i]))).vector?.all
        fun u => u.length == 1) = true := beq_iff_eq.2 (Data.length_select _ _)
    rw [hkind, hbare, singleElement, if_neg hlist, if_pos hone]
    rfl

theorem Value.assignElement_unchanged [Memory] {s : Subscript} {i : Nat} {y : Value}
    (hi : SingleIndex.ofSubscript v s = .ok (.index i)) (hy : v.element? i = some y) :
    ∃ c, (Value.vector v).assignElement s y (v.kind.promote y.asElements.kind) =
      .ok ⟨v.data, v.attributes, c⟩ := by
  obtain ⟨sel, hsel, hindices, hlen, hts⟩ :=
    Selection.ofSingle_of_index hi (Vec.lt_of_element? hy)
  obtain ⟨e, he, hdata⟩ := Value.singleElement_of_element? hy
  refine ⟨v.complete && !e.data.hasNA, ?_⟩
  rw [assignElement_eq he, hsel, Noted.lift_ok_bind]
  exact Vec.assign_unchanged hindices hlen hts hdata

theorem Value.along_null (rs : ω) (ss : List Subscript) : null.along rs ss = .ok null := by
  induction ss with
  | nil => rfl
  | cons s ss ih =>
    rw [along_cons (c := null) rfl]
    exact ih

theorem extractStep_eq_ok {rs : ω} (hv : v.kind = .list) {s : Subscript} (hs : s.Single)
    {c : Value} (hc : c ≠ .null) (h : extractStep rs (.vector v) s = .ok c) :
    ∃ i, SingleIndex.ofSubscript v s = .ok (.index i) ∧ v.element? i = some c := by
  rw [← extract_single rs _ hs true, extract_element rs (.inr hs)] at h
  obtain ⟨p, r, hp, hr, hy⟩ := Vec.subscript_eq_ok h
  have hr : SingleIndex.ofSubscript v s = .ok r := bind_eq_ok.2 ⟨p, hp, hr⟩
  have hhole : v.elementAt none = some .null := congrArg some (if_pos hv)
  cases r with
  | index i => exact ⟨i, hr, hy⟩
  | missing => exact absurd (Option.some.inj (hy.symm.trans hhole)) hc
  | notFound => exact absurd (Option.some.inj (hy.symm.trans hhole)) hc

theorem childAt_of_index {s : Subscript} {i : Nat} {c : Value}
    (hi : SingleIndex.ofSubscript v s = .ok (.index i)) (hc : v.element? i = some c)
    (level : Nat) : childAt (.vector v) s level = .ok c := by
  simp only [childAt, hi, hc]

/-- Every list around the innermost vector is put together again from an equal element. -/
theorem replaceSteps_unchanged [Memory] {rs : ω} {level i : Nat} {x y : Value} {u : Vec Value}
    {last : Subscript} {steps : List Subscript} (hsteps : ∀ s ∈ steps, s.Single)
    (hlast : last.Single) (hu : x.along rs steps = .ok (.vector u))
    (hi : SingleIndex.ofSubscript u last = .ok (.index i)) (hy : y ≠ .null)
    (h : extractSteps rs level x (steps ++ [last]) = .ok y) :
    ∃ w : Vec Value, replaceSteps rs level x last y steps = .ok (.vector w, rs) ∧
      (Value.vector w).same x = true := by
  -- the element that a step leads to comes back equal, but for its flag
  induction steps generalizing level x with
  | nil =>
    cases hu
    have hread : extractStep rs (.vector u) last = .ok y := h
    rw [← extract_single rs _ hlast true, extract_element rs (.inr hlast)] at hread
    obtain ⟨c, hc⟩ := Value.assignElement_unchanged hi (Vec.element?_of_subscript hi hread)
    refine ⟨⟨u.data, u.attributes, c⟩, ?_, Vec.same_of_parts rfl rfl⟩
    rw [replaceSteps, replaceStep_vector rs u hlast hy, hc]
    rfl
  | cons s rest ih =>
    rw [List.cons_append, extractSteps_cons _ _ _ _ (by simp)] at h
    obtain ⟨_, hlevel, h⟩ := bind_eq_ok.1 h
    obtain ⟨c, hc, hrest⟩ := bind_eq_ok.1 h
    obtain ⟨v, rfl, hv⟩ := Value.eq_vector_of_isList (checkLevel_eq_ok hlevel)
    rw [Value.along_cons hc] at hu
    have hsome : c ≠ .null := by
      rintro rfl
      rw [Value.along_null] at hu
      cases hu
    have hs := hsteps s List.mem_cons_self
    obtain ⟨j, hj, hcj⟩ := extractStep_eq_ok hv hs hsome hc
    obtain ⟨d, hd, hsame⟩ := ih (fun t ht => hsteps t (List.mem_cons_of_mem _ ht)) hu hrest
    obtain ⟨xs, hxs⟩ := Data.eq_list_of_kind hv
    have hxj : xs[j]? = some c := by simpa [Vec.element?, hxs] using hcj
    have hlt : j < xs.length := (List.getElem?_eq_some_iff.1 hxj).1
    refine ⟨⟨.list (xs.set j (.vector d)), v.attributes, v.complete⟩, ?_,
      Vec.same_of_set hxs hxj hsame rfl rfl⟩
    rw [replaceSteps, hlevel, childAt_of_index hj hcj, Noted.lift_ok_bind, Noted.lift_ok_bind, hd]
    change replaceStep rs (.vector v) s (.vector d) = _
    rw [replaceStep_list rs hv hs (by simp), Value.assignElement_set hxs hj hlt]
    rfl

theorem steps_eq_ok {path : Vec Value} {ss : List Subscript}
    (h : (Value.vector path).steps = .ok ss) :
    path.kind.isAtomic = true ∧ ss = path.elements.map .given := by
  simp only [Value.steps] at h
  split at h
  · rename_i hatomic
    cases h
    exact ⟨hatomic, rfl⟩
  · cases h

theorem path_written_back [Memory] (rs : ω) {path u : Vec Value} {init : List Subscript}
    {last : Subscript} {i : Nat} {y : Value} (hv : v.kind = .list) (hlen : 2 ≤ path.length)
    (hcut : path.elements.map Subscript.given = init ++ [last])
    (hu : (Value.vector v).stepwise rs drop init = .ok (.vector u))
    (hi : SingleIndex.ofSubscript u last = .ok (.index i)) (hy : y ≠ .null)
    (h : extract rs (.vector v) [.given (.vector path)] .element drop = .ok y) :
    ∃ w : Vec Value, replace rs (.vector v) [.given (.vector path)] y .element =
      .ok (.vector w, rs) ∧ (Value.vector w).same (.vector v) = true := by
  rw [extract_long rs hv hlen] at h
  obtain ⟨ss, hss, h⟩ := bind_eq_ok.1 h
  obtain ⟨hatomic, rfl⟩ := steps_eq_ok hss
  obtain ⟨-, hsingle⟩ := elements_single hatomic
  rw [hcut] at hss h hsingle
  have hinit : ∀ s ∈ init, s.Single := fun s hs => hsingle s (List.mem_append_left _ hs)
  have hlast : last.Single := hsingle last (List.mem_append_right _ (List.mem_singleton_self last))
  rw [Value.stepwise_of_single hinit] at hu
  rw [replace_path rs hv hlen, replacePath_eq hss]
  exact replaceSteps_unchanged hinit hlast hu hi hy h

/-- Writing back what was read changes nothing and warns of nothing, if all that was read stands at
a place: with `[`, along the extents of an array or not, and with `[[`, in one vector or along a
path. Elements and attributes are the same afterwards. Along a path the containers are put together
again, and the outermost is equal to the one that was read. -/
theorem written_back_unchanged [Memory] (rs : ω) (v : Vec Value) (drop : Bool) :
    (∀ (ss : List Subscript) (sel : Selection) (ts : List Nat) (r : Value), v.Shaped → ss ≠ [] →
      Selection.ofSubscripts v ss .extract = .ok sel → sel.indices = ts.map some →
      (∀ t ∈ ts, t < v.length) → extract rs (.vector v) ss .subset drop = .ok r →
      ∃ w : Vec Value, replace rs (.vector v) ss r .subset = .ok (.vector w, rs) ∧
        w.data = v.data ∧ w.attributes = v.attributes) ∧
    (∀ (s : Subscript) (i : Nat) (y : Value), v.kind ≠ .list ∨ s.Single →
      SingleIndex.ofSubscript v s = .ok (.index i) →
      extract rs (.vector v) [s] .element drop = .ok y → y ≠ .null →
      ∃ w : Vec Value, replace rs (.vector v) [s] y .element = .ok (.vector w, rs) ∧
        w.data = v.data ∧ w.attributes = v.attributes) ∧
    ∀ (path u : Vec Value) (init : List Subscript) (last : Subscript) (i : Nat) (y : Value),
      v.kind = .list → 2 ≤ path.length → path.elements.map Subscript.given = init ++ [last] →
      (Value.vector v).stepwise rs drop init = .ok (.vector u) →
      SingleIndex.ofSubscript u last = .ok (.index i) →
      extract rs (.vector v) [.given (.vector path)] .element drop = .ok y → y ≠ .null →
      ∃ w : Vec Value, replace rs (.vector v) [.given (.vector path)] y .element =
        .ok (.vector w, rs) ∧ (Value.vector w == .vector v) = true := by
  refine ⟨fun ss sel ts r hv hss hsel hindices hts h => ?_, fun s i y hs hi h hy => ?_,
    fun path u init last i y hv hlen hcut hu hi h hy =>
      path_written_back rs hv hlen hcut hu hi hy h⟩
  · obtain ⟨ds, hdim, hspans, harray⟩ | ⟨s, p, rfl, hp, rfl⟩ | ⟨hnil, -⟩ :=
      Selection.ofSubscripts_eq_ok hsel
    · obtain ⟨hds, hlen⟩ := (Vec.spans_iff hdim).1 hspans
      exact array_written_back rs hdim hds hlen harray hindices hts h
    · exact subset_written_back rs hv.namesFit hp hindices hts h
    · exact absurd hnil hss
  · rw [extract_element rs hs] at h
    obtain ⟨c, hc⟩ := Value.assignElement_unchanged hi (Vec.element?_of_subscript hi h)
    rw [replace_element rs hs hy, hc]
    exact ⟨_, rfl, rfl, rfl⟩

def nestedRow : Vec Value where
  data := .list [.vector (.ofList [.null, .vector (.ofData (.integer [7, 8]))]), .logical false]
  attributes := some [("dim", .vector (.ofData (.integer [1, 2])))]
  complete := true

theorem shaped_nestedRow : nestedRow.Shaped :=
  .of_extents (by decide) rfl rfl rfl (by decide) rfl

section

attribute [local instance] Memory.unbounded

theorem written_back_unchanged_nestedRow :
    (∃ (r : Value) (w : Vec Value), extract ([] : Records) (.vector nestedRow)
        [.omitted, .given (.vector (.ofData (.integer [2, 2])))] .subset true = .ok r ∧
      replace ([] : Records) (.vector nestedRow)
        [.omitted, .given (.vector (.ofData (.integer [2, 2])))] r .subset = .ok (.vector w, []) ∧
      w.data = nestedRow.data ∧ w.attributes = nestedRow.attributes) ∧
    (∃ w : Vec Value, replace ([] : Records) (.vector nestedRow)
        [.given (.vector (.ofData (.integer [2])))] (.logical false) .element =
          .ok (.vector w, []) ∧
      w.data = nestedRow.data ∧ w.attributes = nestedRow.attributes) ∧
    ∃ w : Vec Value, replace ([] : Records) (.vector nestedRow)
        [.given (.vector (.ofData (.integer [1, 2, 2])))] (.vector (.ofData (.integer [8])))
        .element = .ok (.vector w, []) ∧ (Value.vector w == .vector nestedRow) = true := by
  obtain ⟨hsubset, helement, hpath⟩ := written_back_unchanged ([] : Records) nestedRow true
  refine ⟨?_, helement _ 1 _ (.inr rfl) rfl rfl (by simp [Value.logical]), ?_⟩
  · obtain ⟨w, hw, hdata, hattributes⟩ := hsubset
      [.omitted, .given (.vector (.ofData (.integer [2, 2])))] _ [1, 1] _ shaped_nestedRow
      (by simp) rfl rfl (by decide) rfl
    exact ⟨_, w, rfl, hw, hdata, hattributes⟩
  · exact hpath (.ofData (.integer [1, 2, 2])) (.ofData (.integer [7, 8]))
      [.given (.vector (.ofData (.integer [1]))), .given (.vector (.ofData (.integer [2])))]
      (.given (.vector (.ofData (.integer [2])))) 1 _ rfl (by decide) rfl rfl rfl rfl (by simp)

end

end LazyVectors
