import LazyVectors.Access.Extract
import LazyVectors.Proofs.Elements
import LazyVectors.Proofs.Labels
import LazyVectors.Proofs.Targets
set_option autoImplicit false

namespace LazyVectors

variable {ω : Type} [Foreign ω]

namespace Selection

theorem mem_of_mem_excludeAscending {is es : List Nat} {k : Nat}
    (h : k ∈ excludeAscending is es) : k ∈ is := by
  induction is generalizing es with
  | nil => cases h
  | cons i is ih =>
    simp only [excludeAscending] at h
    split at h
    · exact List.mem_cons_of_mem _ (ih h)
    · rcases List.mem_cons.1 h with rfl | h
      · exact List.mem_cons_self
      · exact List.mem_cons_of_mem _ (ih h)

theorem lt_of_mem_maskPlaces {n : Nat} {bs : List (Option Bool)} {i : Nat}
    (h : some i ∈ maskPlaces n .extract bs) : i < n := by
  unfold maskPlaces at h
  obtain ⟨j, -, hj⟩ := List.mem_filterMap.1 h
  rcases hb : (bs[j % bs.length]?).join with _ | _ | _
  · simp [hb] at hj
  · simp [hb] at hj
  · simp only [hb, Option.some.injEq, reduceCtorEq, or_false] at hj
    split at hj
    · rename_i hlt
      rwa [← Option.some.inj hj]
    · cases hj

theorem lt_of_mem_extract {n : Nat} {ns : Option (List (Option String))}
    (hns : (ns.getD []).length ≤ n) {q : Position} {i : Nat}
    (h : some i ∈ (resolve n ns .extract q).indices) : i < n := by
  cases q with
  | everything =>
    obtain ⟨j, hj, hji⟩ := List.mem_map.1 h
    rw [← Option.some.inj hji]
    exact List.mem_range.1 hj
  | nothing => cases h
  | indices is =>
    obtain ⟨j, -, hji⟩ := List.mem_map.1 h
    simp only [true_and] at hji
    split at hji
    · cases hji
    · rename_i hlt
      subst j
      simpa using hlt
  | excluding es =>
    obtain ⟨j, hj, hji⟩ := List.mem_map.1 h
    rw [← Option.some.inj hji]
    exact List.mem_range.1 (mem_of_mem_excludeAscending hj)
  | mask bs => exact lt_of_mem_maskPlaces h
  | named ls =>
    rw [indices_named_extract] at h
    obtain ⟨l, -, hl⟩ := List.mem_map.1 h
    exact Nat.lt_of_lt_of_le (labelPlace_lt hl) hns

end Selection

namespace Vec

theorem pickNames_eq_ok {ns : List (Option String)} {is : List (Option Nat)}
    (h : ∀ i, some i ∈ is → i < ns.length) : pickNames ns is = .ok (is.map (Data.pick ns)) := by
  unfold pickNames
  induction is with
  | nil => rfl
  | cons i is ih =>
    rw [List.mapM_cons, ih fun j hj => h j (List.mem_cons_of_mem _ hj)]
    cases i with
    | none => rfl
    | some i =>
      have hi := h i List.mem_cons_self
      simp only [List.getElem?_eq_getElem hi, List.map_cons, Data.pick, Option.bind_some,
        Option.getD_some]
      rfl

theorem NamesFit.length_le {v : Vec Value} (h : v.NamesFit) :
    (v.names?.getD []).length ≤ v.length := by
  cases hns : v.names? with
  | none => exact Nat.zero_le _
  | some ns => exact Nat.le_of_eq (h ns hns)

theorem subset_given {v : Vec Value} {x : Value} {q : Position}
    (hq : (Subscript.given x).position = .ok q) : v.subset [.given x] =
      v.names?.elim (.ok (ofData (v.data.select (Selection.ofPosition v .extract q).indices)))
        fun ns => pickNames ns (Selection.ofPosition v .extract q).indices >>=
          (ofData (v.data.select (Selection.ofPosition v .extract q).indices)).setNames := by
  rw [subset, hq]
  cases v.names? <;> rfl

/-- The elements at some places with their labels, without any other attribute. -/
def picked (v : Vec Value) (is : List (Option Nat)) : Vec Value where
  data := v.data.select is
  attributes := v.names?.map fun ns => [("names", .vector (.ofStrings (is.map (Data.pick ns))))]
  complete := !(v.data.select is).hasNA

theorem subset_eq_picked {v : Vec Value} (hv : v.NamesFit) {x : Value} {q : Position}
    (hq : (Subscript.given x).position = .ok q) :
    v.subset [.given x] = .ok (v.picked (Selection.ofPosition v .extract q).indices) := by
  have his : ∀ i, some i ∈ (Selection.ofPosition v .extract q).indices → i < v.length :=
    fun i hi => Selection.lt_of_mem_extract hv.length_le hi
  rw [subset_given hq, picked]
  cases hns : v.names? with
  | none => rfl
  | some ns =>
    have hpick := pickNames_eq_ok fun i hi => by
      rw [hv ns hns]
      exact his i hi
    simp only [Option.elim_some, hpick]
    refine setNames_eq_ok.2 ⟨by simp [length, ofData], ?_⟩
    simp [putAttribute, Attributes.put, Value.isNull, Named.put, ofData, length]

theorem subset_eq_ok {v : Vec Value} (hv : v.NamesFit) {p : Subscript} {q : Position}
    (hq : p.position = .ok q) :
    ∃ r, v.subset [p] = .ok r ∧
      r.data = v.data.select (Selection.ofPosition v .extract q).indices := by
  cases p with
  | omitted =>
    cases hq
    exact ⟨v, rfl, (Data.select_range v.data).symm⟩
  | given x => exact ⟨_, subset_eq_picked hv hq, rfl⟩

/-- What reading several elements gives: a vector without attributes, labelled or not, or an
array whose extents are among `es`. -/
inductive Gathered (es : List Nat) (d : Data Value) : Vec Value → Prop
  | plain : Gathered es d (ofData d)
  | labelled {ns : List (Option String)} {r : Vec Value} (hnames : (ofData d).setNames ns = .ok r) :
    Gathered es d r
  | array {ds : List Nat} {r : Vec Value} (hds : ∀ n ∈ ds, n ∈ es)
    (hdim : (ofData d).setDim ds = .ok r) : Gathered es d r
  | labelledArray {ds : List Nat} {ls : List (Option (List (Option String)))} {a r : Vec Value}
    (hds : ∀ n ∈ ds, n ∈ es) (hdim : (ofData d).setDim ds = .ok a)
    (hdimnames : a.setDimnames ls = .ok r) : Gathered es d r

theorem subset_cases {v r : Vec Value} {ss : List Subscript} (h : v.subset ss = .ok r) :
    r = v ∨ ∃ is, Gathered [] (v.data.select is) r := by
  rcases ss with _ | ⟨_ | x, ss⟩
  · cases h
    exact .inl rfl
  · cases h
    exact .inl rfl
  · rw [subset] at h
    obtain ⟨q, -, h⟩ := bind_eq_ok.1 h
    refine .inr ⟨(Selection.ofPosition v .extract q).indices, ?_⟩
    simp only at h
    split at h
    · cases h
      exact .plain
    · obtain ⟨ns, -, h⟩ := bind_eq_ok.1 h
      exact .labelled h

theorem subsetArray_cases {v r : Vec Value} {ss : List Subscript} {drop : Bool}
    (h : v.subsetArray ss drop = .ok r) : ∃ sel, Selection.ofArray v (v.dim?.getD []) ss = .ok sel ∧
      Gathered ((sel.perDim.getD []).map List.length) (v.data.select sel.indices) r := by
  obtain ⟨sel, hsel, h⟩ := bind_eq_ok.1 h
  refine ⟨sel, hsel, ?_⟩
  obtain ⟨labels, -, h⟩ := bind_eq_ok.1 h
  have hkept : ∀ e ∈ (((sel.perDim.getD []).map List.length).zip labels).filter
      fun e => !drop || e.1 != 1, e.1 ∈ (sel.perDim.getD []).map List.length :=
    fun e he => (List.of_mem_zip (List.mem_filter.1 he).1).1
  simp only at h
  split at h
  · cases h
    exact .plain
  · cases h
    exact .plain
  · exact .labelled h
  · have hds : ∀ n ∈ ((((sel.perDim.getD []).map List.length).zip labels).filter
        fun e => !drop || e.1 != 1).map (·.1), n ∈ (sel.perDim.getD []).map List.length := by
      intro n hn
      obtain ⟨e, he, rfl⟩ := List.mem_map.1 hn
      exact hkept e he
    obtain ⟨a, ha, h⟩ := bind_eq_ok.1 h
    split at h
    · exact .labelledArray hds ha h
    · cases h
      exact .array hds ha

end Vec

def Vec.Spans (v : Vec Value) (ss : List Subscript) : Prop :=
  2 ≤ (v.dim?.getD []).length ∧ ss.length = (v.dim?.getD []).length

instance (v : Vec Value) (ss : List Subscript) : Decidable (v.Spans ss) :=
  inferInstanceAs (Decidable (_ ∧ _))

theorem Vec.not_spans_single (v : Vec Value) (s : Subscript) : ¬v.Spans [s] := by
  rintro ⟨htwo, hone⟩
  rw [List.length_singleton] at hone
  omega

theorem Vec.spans_iff {v : Vec Value} {ss : List Subscript} {ds : List Nat}
    (hdim : v.dim? = some ds) : v.Spans ss ↔ 2 ≤ ds.length ∧ ss.length = ds.length := by
  rw [Spans, hdim]
  rfl

theorem Vec.Spans.dim? {v : Vec Value} {ss : List Subscript} (h : v.Spans ss) :
    ∃ ds, v.dim? = some ds := by
  cases hdim : v.dim? with
  | some ds => exact ⟨ds, rfl⟩
  | none =>
    have htwo := h.1
    rw [hdim] at htwo
    cases htwo

theorem Shape.length_subscripts (x : Value) (ss : List Subscript) (value : Option Value)
    (mode : Mode) : (of x ss value mode).subscripts.length = ss.length := List.length_map _

theorem Shape.isMatrix_of_vector (v : Vec Value) (ss : List Subscript) (value : Option Value)
    (mode : Mode) : (of (.vector v) ss value mode).isMatrix = decide (v.Spans ss) := by
  have hdims : (of (.vector v) ss value mode).dims = (v.dim?.getD []).length := by
    change (v.dim?.map List.length).getD 0 = _
    cases v.dim? <;> rfl
  rw [isMatrix, hdims, length_subscripts]
  exact (Bool.decide_and ..).symm

/-- The resolver tells arrays apart by their extents and the number of subscripts. -/
theorem Selection.ofSubscripts_eq (v : Vec Value) (ss : List Subscript) (purpose : Purpose) :
    ofSubscripts v ss purpose =
      if v.Spans ss then ofArray v (v.dim?.getD []) ss
      else if 1 < ss.length then .error (.index .wrongDimensions)
      else (ss.head?.elim (.ok .everything) Subscript.position).map (ofPosition v purpose) := by
  by_cases hspans : v.Spans ss
  · rw [if_pos hspans]
    exact if_pos hspans
  · rw [if_neg hspans]
    refine (if_neg hspans).trans ?_
    rcases ss with _ | ⟨s, _ | ⟨t, rest⟩⟩
    · rfl
    · rfl
    · rw [if_pos (by simp)]

theorem Selection.ofSubscripts_eq_ok {v : Vec Value} {ss : List Subscript} {purpose : Purpose}
    {sel : Selection} (h : ofSubscripts v ss purpose = .ok sel) :
    (∃ ds, v.dim? = some ds ∧ v.Spans ss ∧ ofArray v ds ss = .ok sel) ∨
      (∃ s p, ss = [s] ∧ s.position = .ok p ∧ sel = ofPosition v purpose p) ∨
      ss = [] ∧ sel = ofPosition v purpose .everything := by
  rw [ofSubscripts_eq] at h
  by_cases hspans : v.Spans ss
  · rw [if_pos hspans] at h
    obtain ⟨ds, hdim⟩ := hspans.dim?
    rw [hdim] at h
    exact .inl ⟨ds, hdim, hspans, h⟩
  rw [if_neg hspans] at h
  rcases ss with _ | ⟨s, _ | ⟨t, rest⟩⟩
  · cases h
    exact .inr (.inr ⟨rfl, rfl⟩)
  · obtain ⟨p, hp, rfl⟩ := map_eq_ok.1 h
    exact .inr (.inl ⟨s, p, rfl, hp, rfl⟩)
  · cases h

theorem ExtractPlan.strategyOf_subset {s : Shape} (hmode : s.mode = .subset)
    (hcontainer : s.container.isVector) : strategyOf s =
      if s.isMatrix then .ok .matrix
      else if 1 < s.subscripts.length then .error (.index .wrongDimensions) else .ok .subset := by
  have hforeign : s.container ≠ .foreign := fun h => by simp [h, Kind.isVector] at hcontainer
  have hnull : s.container ≠ .null := fun h => by simp [h, Kind.isVector] at hcontainer
  simp [strategyOf, hmode, hcontainer, hforeign, hnull]

theorem extract_vector (rs : ω) (v : Vec Value) (ss : List Subscript) (drop : Bool) :
    extract rs (.vector v) ss .subset drop =
      if v.Spans ss then (v.subsetArray ss drop).map .vector
      else if 1 < ss.length then .error (.index .wrongDimensions)
      else (v.subset ss).map .vector := by
  have hplan := ExtractPlan.strategyOf_subset (s := .of (.vector v) ss none .subset) rfl
    (Data.kind_isVector v.data)
  rw [Shape.isMatrix_of_vector, Shape.length_subscripts] at hplan
  unfold extract ExtractPlan.build
  rw [hplan]
  by_cases hspans : v.Spans ss
  · simp only [hspans, decide_true, if_true]
    rfl
  · by_cases hmany : 1 < ss.length
    · simp only [hspans, hmany, decide_false, Bool.false_eq_true, if_false, if_true]
      rfl
    · simp only [hspans, hmany, decide_false, Bool.false_eq_true, if_false]
      rfl

theorem extract_subset (rs : ω) (v : Vec Value) (p : Subscript) (drop : Bool) :
    extract rs (.vector v) [p] .subset drop = (v.subset [p]).map .vector := by
  rw [extract_vector, if_neg (v.not_spans_single p)]
  rfl

theorem Selection.ofSubscripts_single (v : Vec Value) (s : Subscript) (purpose : Purpose) :
    ofSubscripts v [s] purpose = s.position.map (ofPosition v purpose) := by
  rw [ofSubscripts_eq, if_neg (v.not_spans_single s)]
  rfl

end LazyVectors
