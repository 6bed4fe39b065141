import LazyVectors.Proofs.ArrayParts
import LazyVectors.Proofs.InRange
/-!
The resolver by itself, against reading and writing by `[`. These settle on a plan first and
then resolve on their own; a call is taken along the extents of an array, refused or taken
against the whole vector in the same cases, and what is read or written are the places of the
selection.
-/

set_option autoImplicit false

namespace LazyVectors

variable {ω : Type} [Foreign ω]

/-- No extent of the part that a selection leads to is too large to be kept, and no number of
places along some of them too large to be counted. -/
def Selection.Small (s : Selection) : Prop :=
  (∀ n ∈ s.sizes, n < extentBound) ∧
    ∀ ns : List Nat, ns.Sublist s.sizes → volume ns < UInt64.size

variable {v w : Vec Value} {ss : List Subscript} {sel : Selection} {value : Value} {k : Kind}

theorem extract_of_refused (rs : ω) {e : Failure} (drop : Bool)
    (h : Selection.ofSubscripts v ss .extract = .error e) :
    extract rs (.vector v) ss .subset drop = .error e := by
  rw [Selection.ofSubscripts_eq] at h
  rw [extract_vector]
  by_cases hspans : v.Spans ss
  · rw [if_pos hspans] at h ⊢
    rw [Vec.subsetArray, h]
    rfl
  rw [if_neg hspans] at h ⊢
  by_cases hmany : 1 < ss.length
  · rw [if_pos hmany] at h ⊢
    cases h
    rfl
  rw [if_neg hmany] at h ⊢
  rcases ss with _ | ⟨_ | x, rest⟩
  · cases h
  · cases h
  · cases hx : (Subscript.given x).position with
    | ok q =>
      rw [List.head?_cons, Option.elim_some, hx] at h
      cases h
    | error e' =>
      rw [List.head?_cons, Option.elim_some, hx] at h
      cases h
      rw [Vec.subset, hx]
      rfl

theorem extract_of_resolved (rs : ω) (drop : Bool) (hv : v.Shaped)
    (h : Selection.ofSubscripts v ss .extract = .ok sel) (hsmall : v.Spans ss → sel.Small) :
    ∃ r : Vec Value, extract rs (.vector v) ss .subset drop = .ok (.vector r) ∧
      r.data = v.data.select sel.indices := by
  obtain ⟨ds, hdim, hspans, h⟩ | ⟨s, q, rfl, hq, rfl⟩ | ⟨rfl, rfl⟩ :=
    Selection.ofSubscripts_eq_ok h
  · obtain ⟨hsizes, hproducts⟩ := hsmall hspans
    obtain ⟨perDim, r, -, -, hr, hdata, -⟩ :=
      Vec.subsetArray_of_fit drop hdim hv.dimnames h hsizes hproducts
    exact ⟨r, by rw [extract_vector, if_pos hspans, hr]; rfl, hdata⟩
  · obtain ⟨r, hr, hdata⟩ := Vec.subset_eq_ok hv.namesFit hq
    exact ⟨r, by rw [extract_subset, hr]; rfl, hdata⟩
  · refine ⟨v, ?_, (Data.select_range v.data).symm⟩
    rw [extract_vector, if_neg fun hspans => ?_]
    · rfl
    · obtain ⟨htwo, hnone⟩ := hspans
      rw [← hnone] at htwo
      cases htwo

theorem Vec.kept_of_assign [Memory] {value : Vec Value}
    (hsel : sel.length = Selection.reach v.length sel.targets)
    (h : (v.assign sel value k).result = .ok w) : ∃ old : Vec Value,
      (v.cast w.kind).result = .ok old ∧ old.length = v.length ∧
        ∀ i, i < v.length → i ∉ sel.targets →
          w.data.select [some i] = old.data.select [some i] := by
  obtain ⟨old, values, hold, -, hover⟩ := Vec.overwritten_of_assign hsel h
  obtain ⟨hkind, hlen⟩ := Data.kind_length_of_cast (Vec.cast_eq_ok hold).1
  have hsame : w.kind = k := hover.kind.trans hkind
  exact ⟨old, hsame ▸ hold, hlen, fun i hi => hover.kept i (hlen.symm ▸ hi)⟩

theorem replace_writes_targets [Memory] (rs rs' : ω) {y : Value} (hv : v.Shaped)
    (hvalue : value ≠ .null)
    (h : (replace rs (.vector v) ss value .subset).result = .ok (y, rs')) :
    ∃ (sel : Selection) (w old : Vec Value), Selection.ofSubscripts v ss .replace = .ok sel ∧
      y = .vector w ∧ (v.cast w.kind).result = .ok old ∧ old.length = v.length ∧
      ∀ i, i < v.length → i ∉ sel.targets →
        w.data.select [some i] = old.data.select [some i] := by
  rw [Selection.ofSubscripts_eq]
  rw [replace_vector rs v ss hvalue] at h
  -- along the extents of an array, then too many subscripts, then one or none
  by_cases hspans : v.Spans ss
  · rw [if_pos hspans, Noted.result_bind] at h
    obtain ⟨w, hw, h⟩ := bind_eq_ok.1 h
    cases h
    obtain ⟨sel, hsel, hassign⟩ := assignArray_eq_ok hw
    obtain ⟨ds, hdim⟩ := hspans.dim?
    rw [hdim, Option.getD_some] at hsel
    have hinside : Selection.reach v.length sel.targets = v.length := by
      refine Selection.reach_of_lt fun t ht => ?_
      rw [← (hv.dims hdim).1]
      exact Selection.lt_of_mem_targets_ofArray hsel ht
    obtain ⟨old, hold, hkept⟩ :=
      Vec.kept_of_assign ((Selection.length_ofArray hsel).trans hinside.symm) hassign
    exact ⟨_, w, old, by rw [if_pos hspans, hdim]; exact hsel, rfl, hold, hkept⟩
  rw [if_neg hspans] at h
  by_cases hmany : 1 < ss.length
  · rw [if_pos hmany] at h
    cases h
  rw [if_neg hmany, Noted.result_bind] at h
  obtain ⟨w, hw, h⟩ := bind_eq_ok.1 h
  cases h
  obtain ⟨u, q, hu, hq, hassign⟩ := Value.assignSubset_eq_ok hvalue hw
  cases hu
  obtain ⟨old, hold, hkept⟩ := Vec.kept_of_assign rfl hassign
  exact ⟨_, w, old, by rw [if_neg hspans, if_neg hmany, hq]; rfl, rfl, hold, hkept⟩

/-- The resolver by itself agrees with reading and writing by `[`, for any number of subscripts and
any number of extents. It fails exactly when reading fails, and for the same reason; otherwise what
is read are the elements at the resolved places. Where writing succeeds the resolver does too, and
the elements that change, apart from the cast to the kind of the result, are at its targets or were
not there before. -/
theorem resolver_agrees_with_access [Memory] (rs : ω) (v : Vec Value) (ss : List Subscript)
    (drop : Bool) (hv : v.Shaped)
    (hsmall : v.Spans ss → ∀ sel, Selection.ofSubscripts v ss .extract = .ok sel → sel.Small) :
    (∀ e, Selection.ofSubscripts v ss .extract = .error e ↔
      extract rs (.vector v) ss .subset drop = .error e) ∧
    (∀ sel, Selection.ofSubscripts v ss .extract = .ok sel →
      ∃ r : Vec Value, extract rs (.vector v) ss .subset drop = .ok (.vector r) ∧
        r.data = v.data.select sel.indices) ∧
    ∀ value y rs', value ≠ .null →
      (replace rs (.vector v) ss value .subset).result = .ok (y, rs') →
      ∃ (sel : Selection) (w old : Vec Value), Selection.ofSubscripts v ss .replace = .ok sel ∧
        y = .vector w ∧ (v.cast w.kind).result = .ok old ∧ old.length = v.length ∧
        ∀ i, w.data.select [some i] ≠ old.data.select [some i] →
          i ∈ sel.targets ∨ v.length ≤ i := by
  have hread : ∀ sel, Selection.ofSubscripts v ss .extract = .ok sel →
      ∃ r : Vec Value, extract rs (.vector v) ss .subset drop = .ok (.vector r) ∧
        r.data = v.data.select sel.indices := fun sel hsel =>
    extract_of_resolved rs drop hv hsel fun hspans => hsmall hspans sel hsel
  refine ⟨fun e => ⟨extract_of_refused rs drop, fun h => ?_⟩, hread, fun value y rs' hvalue h => ?_⟩
  · cases hresolved : Selection.ofSubscripts v ss .extract with
    | ok sel =>
      obtain ⟨r, hr, -⟩ := hread sel hresolved
      rw [hr] at h
      cases h
    | error e' =>
      rw [extract_of_refused rs drop hresolved] at h
      cases h
      rfl
  · obtain ⟨sel, w, old, hsel, hy, hold, hlen, hkept⟩ :=
      replace_writes_targets rs rs' hv hvalue h
    refine ⟨sel, w, old, hsel, hy, hold, hlen, fun i hchanged => ?_⟩
    by_contra hnot
    obtain ⟨htarget, hbehind⟩ := not_or.1 hnot
    exact hchanged (hkept i (Nat.lt_of_not_le hbehind) htarget)

theorem shaped_squareMatrix : squareMatrix.Shaped :=
  .of_extents (by decide) rfl rfl rfl (by decide) rfl

section

attribute [local instance] Memory.unbounded

theorem resolver_agrees_with_access_square :
    (∃ r : Vec Value, extract ([] : Records) (.vector squareMatrix)
        [.given (.vector (.ofData (.integer [2, Element.hole]))), .omitted] .subset true =
          .ok (.vector r) ∧ r.data = .integer [2, Element.hole, 4, Element.hole]) ∧
    (∃ w old : Vec Value, (replace ([] : Records) (.vector squareMatrix)
        [.given (.vector (.ofData (.integer [2, Element.hole]))), .omitted]
        (.vector (.ofData (.double [.ofInt 9]))) .subset).result = .ok (.vector w, []) ∧
      (squareMatrix.cast .double).result = .ok old ∧
      w.data.select [some 2] = old.data.select [some 2]) ∧
    extract ([] : Records) (.vector squareMatrix) [.omitted, .omitted, .omitted] .subset true =
      .error (.index .wrongDimensions) := by
  have hsel : ∀ purpose, Selection.ofSubscripts squareMatrix
      [.given (.vector (.ofData (.integer [2, Element.hole]))), .omitted] purpose =
        .ok ⟨[some 1, none, some 3, none], 4, [], some [[some 1, none], [some 0, some 1]]⟩ :=
    fun _ => rfl
  have hsmall : Selection.Small
      ⟨[some 1, none, some 3, none], 4, [], some [[some 1, none], [some 0, some 1]]⟩ := by
    refine ⟨by decide, fun ns hns => ?_⟩
    have hall : ∀ ms ∈ [2, 2].sublists, volume ms < UInt64.size := by decide
    exact hall ns (List.mem_sublists.2 hns)
  obtain ⟨-, hread, hwrite⟩ := resolver_agrees_with_access ([] : Records) squareMatrix
    [.given (.vector (.ofData (.integer [2, Element.hole]))), .omitted] true shaped_squareMatrix
    fun _ sel h => by
      rw [hsel] at h
      cases h
      exact hsmall
  obtain ⟨hrefused, -⟩ := resolver_agrees_with_access ([] : Records) squareMatrix
    [.omitted, .omitted, .omitted] true shaped_squareMatrix fun hspans => absurd hspans (by decide)
  refine ⟨hread _ (hsel _), ?_, (hrefused _).1 rfl⟩
  obtain ⟨sel, w, old, htargets, hw, hold, -, hchanged⟩ :=
    hwrite (.vector (.ofData (.double [.ofInt 9]))) _ [] (by simp) rfl
  rw [hsel] at htargets
  cases htargets
  cases hw
  refine ⟨_, old, rfl, hold, ?_⟩
  by_contra hne
  exact absurd (hchanged 2 hne) (by decide)

end

end LazyVectors
