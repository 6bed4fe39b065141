import LazyVectors.Proofs.Extraction
set_option autoImplicit false

namespace LazyVectors

variable {ω : Type} [Foreign ω]

namespace Selection

/-- The places that numbers read: all but the excluded ones if any number is negative, and
otherwise those one below the numbers that are not zero; a missing number and one past the end
read no place. -/
def numberReads (n : Nat) (ks : List (Option Int)) : List (Option Nat) :=
  if ks.any fun k => k.any (· < 0) then
    ((List.range n).filter fun i : Nat => !ks.contains (some (-(i : Int) - 1))).map some
  else (ks.filter (· != some 0)).map fun k =>
    k.bind fun k => if (k - 1).toNat < n then some (k - 1).toNat else none

/-- The places that a mask, used over and over, reads: those of its marks that are not false, and
none where the mark is missing or past the end. -/
def maskReads (n : Nat) (bs : List (Option Bool)) : List (Option Nat) :=
  if bs = [] then []
  else ((List.range (max n bs.length)).filter fun i => bs[i % bs.length]? != some (some false)).map
    fun i => if bs[i % bs.length]? = some (some true) ∧ i < n then some i else none

end Selection

namespace Subscript

/-- The places that a subscript reads in a vector of length `n` with the names `ns`, in order, and
no place for each element that is missing from the vector. -/
def reads (n : Nat) (ns : List (Option String)) : Subscript → List (Option Nat)
  | .omitted => (List.range n).map some
  | .given (.vector ⟨.logical bs, _, _⟩) => Selection.maskReads n bs
  | .given (.vector ⟨.integer ks, _, _⟩) => Selection.numberReads n (ks.map Position.ofInteger)
  | .given (.vector ⟨.double xs, _, _⟩) => Selection.numberReads n (xs.map Position.ofDouble)
  | .given (.vector ⟨.character ls, _, _⟩) => ls.map (labelPlace ns)
  | .given _ => []

def numbers : Subscript → List (Option Int)
  | .given (.vector ⟨.integer ks, _, _⟩) => ks.map Position.ofInteger
  | .given (.vector ⟨.double xs, _, _⟩) => xs.map Position.ofDouble
  | .omitted | .given _ => []

/-- Negative numbers together with positive or missing ones. -/
def Mixed (s : Subscript) : Prop :=
  (∃ k, some k ∈ s.numbers ∧ k < 0) ∧ (none ∈ s.numbers ∨ ∃ k, some k ∈ s.numbers ∧ 0 < k)

end Subscript

namespace Position

variable {ks : List (Option Int)}

theorem unwanted_nonempty :
    (ks.filterMap unwanted).isEmpty = false ↔ ∃ k, some k ∈ ks ∧ k < 0 := by
  rw [← Bool.not_eq_true', ← Selection.any_negative, List.any_eq_true]
  constructor
  · rintro ⟨k, hk, hneg⟩
    obtain ⟨k, rfl, hneg⟩ := (Option.any_eq_true _ _).1 hneg
    exact ⟨k, hk, of_decide_eq_true hneg⟩
  · rintro ⟨k, hk, hneg⟩
    exact ⟨some k, hk, decide_eq_true hneg⟩

theorem wanted_nonempty :
    (ks.filterMap wanted).isEmpty = false ↔ none ∈ ks ∨ ∃ k, some k ∈ ks ∧ 0 < k := by
  rw [List.isEmpty_eq_false_iff_exists_mem]
  simp only [List.mem_filterMap]
  constructor
  · rintro ⟨i, k, hk, hi⟩
    cases k with
    | none => exact .inl hk
    | some k =>
      refine .inr ⟨k, hk, ?_⟩
      simp only [wanted] at hi
      split at hi
      · assumption
      · cases hi
  · rintro (h | ⟨k, hk, hpos⟩)
    · exact ⟨none, none, h, rfl⟩
    · exact ⟨_, some k, hk, if_pos hpos⟩

theorem ofNumbers_of_mixed (hneg : ∃ k, some k ∈ ks ∧ k < 0)
    (hpos : none ∈ ks ∨ ∃ k, some k ∈ ks ∧ 0 < k) : ofNumbers ks =
      .error (.index (if none ∈ ks then .missingWithNegative else .mixedSigns)) := by
  by_cases hmissing : none ∈ ks <;>
    simp [ofNumbers, unwanted_nonempty.2 hneg, wanted_nonempty.2 hpos, hmissing]

theorem ofNumbers_of_not_mixed (h : ¬((∃ k, some k ∈ ks ∧ k < 0) ∧
    (none ∈ ks ∨ ∃ k, some k ∈ ks ∧ 0 < k))) : ∃ q, ofNumbers ks = .ok q := by
  rw [← unwanted_nonempty, ← wanted_nonempty] at h
  cases hneg : (ks.filterMap unwanted).isEmpty with
  | true =>
    simp [ofNumbers, hneg]
  | false =>
    have hpos : (ks.filterMap wanted).isEmpty = true := by simpa [hneg] using h
    have hpresent : none ∉ ks := fun hmem => by
      have := wanted_nonempty.2 (.inl hmem)
      rw [hpos] at this
      cases this
    simp [ofNumbers, hneg, hpos, hpresent]

end Position

namespace Selection

theorem map_wanted {n : Nat} {ks : List (Option Int)}
    (h : (ks.filterMap Position.unwanted).isEmpty = true) :
    (ks.filterMap Position.wanted).map (fun i => if i.all (· < n) then i else none) =
      (ks.filter (· != some 0)).map fun k =>
        k.bind fun k => if (k - 1).toNat < n then some (k - 1).toNat else none := by
  induction ks with
  | nil => rfl
  | cons k ks ih =>
    cases k with
    | none =>
      have hrest := ih (by simpa [Position.unwanted] using h)
      simpa [Position.wanted] using hrest
    | some k =>
      by_cases hneg : k < 0
      · simp [Position.unwanted, hneg] at h
      have hrest := ih (by simpa [Position.unwanted, hneg] using h)
      by_cases hzero : k = 0
      · simpa [Position.wanted, hzero] using hrest
      · have hpos : 0 < k := by omega
        simpa [Position.wanted, hpos, hzero] using hrest

theorem indices_ofNumbers {n : Nat} {ns : Option (List (Option String))} {ks : List (Option Int)}
    {q : Position} (h : Position.ofNumbers ks = .ok q) :
    (resolve n ns .extract q).indices = numberReads n ks := by
  unfold numberReads
  rw [any_negative]
  simp only [Position.ofNumbers] at h
  -- no negative number: each is read at its place; otherwise the excluded places are left out
  cases hneg : (ks.filterMap Position.unwanted).isEmpty with
  | true =>
    simp only [hneg, if_true, Except.ok.injEq] at h
    subst q
    have hreads : (resolve n ns .extract (if (ks.filterMap Position.wanted).isEmpty then .nothing
        else .indices (ks.filterMap Position.wanted))).indices =
        (ks.filterMap Position.wanted).map fun i => if i.all (· < n) then i else none := by
      split
      · rename_i hnone
        rw [List.isEmpty_iff.1 hnone]
        rfl
      · refine List.map_congr_left fun i _ => ?_
        cases i.all (· < n) <;> simp
    rw [hreads]
    exact map_wanted hneg
  | false =>
    simp only [hneg, Bool.false_eq_true, if_false] at h
    split at h
    · cases h
    split at h
    · cases h
    · cases h
      exact congrArg (List.map some) (excludeAscending_unwanted n ks)

theorem maskPlaces_extract (n : Nat) (bs : List (Option Bool)) :
    maskPlaces n .extract bs = maskReads n bs := by
  unfold maskPlaces maskReads
  by_cases hbs : bs = []
  · simp [hbs]
  rw [if_neg (by simpa using hbs), if_neg hbs, ← List.filterMap_eq_filter, List.map_filterMap]
  refine Data.filterMap_congr_mem fun i _ => ?_
  have hlt : i % bs.length < bs.length := Nat.mod_lt i (List.length_pos_iff.2 hbs)
  have hmark : bs[i % bs.length]? = some bs[i % bs.length] := List.getElem?_eq_getElem hlt
  rcases hb : bs[i % bs.length] with _ | _ | _
  · simp [Option.guard, hmark, hb]
  · simp [Option.guard, hmark, hb]
  · simp [Option.guard, hmark, hb]

theorem indices_eq_reads {n : Nat} {ns : Option (List (Option String))} {p : Subscript}
    {q : Position} (h : p.position = .ok q) :
    (resolve n ns .extract q).indices = p.reads n (ns.getD []) := by
  cases p with
  | omitted =>
    cases h
    rfl
  | given x =>
    cases x with
    | null =>
      cases h
      rfl
    | vector v =>
      obtain ⟨d, as, c⟩ := v
      cases d with
      | logical bs =>
        cases h
        exact maskPlaces_extract n bs
      | integer ks => exact indices_ofNumbers h
      | double xs => exact indices_ofNumbers h
      | character ls =>
        cases h
        exact indices_named_extract n ns ls
      | _ => cases h
    | _ => cases h

end Selection

def Kind.isPosition : Kind → Bool
  | .null | .logical | .integer | .double | .character => true
  | .complex | .list | .symbol | .closure | .foreign => false

namespace Subscript

variable {x : Value}

theorem position_of_mixed (h : (given x).Mixed) : (given x).position =
    .error (.index (if none ∈ (given x).numbers then .missingWithNegative else .mixedSigns)) := by
  obtain ⟨hneg, hpos⟩ := h
  have hempty : (given x).numbers ≠ [] := fun hnil => by simp [hnil] at hneg
  cases x with
  | vector v =>
    obtain ⟨d, as, c⟩ := v
    cases d with
    | integer ks => exact Position.ofNumbers_of_mixed hneg hpos
    | double xs => exact Position.ofNumbers_of_mixed hneg hpos
    | _ => exact absurd rfl hempty
  | _ => exact absurd rfl hempty

theorem position_of_not_mixed (hx : x.kind.isPosition) (h : ¬(given x).Mixed) :
    ∃ q, (given x).position = .ok q := by
  cases x with
  | null => exact ⟨_, rfl⟩
  | vector v =>
    obtain ⟨d, as, c⟩ := v
    cases d with
    | logical bs => exact ⟨_, rfl⟩
    | integer ks => exact Position.ofNumbers_of_not_mixed h
    | double xs => exact Position.ofNumbers_of_not_mixed h
    | character ls => exact ⟨_, rfl⟩
    | _ => cases hx
  | _ => cases hx

end Subscript

namespace Data

theorem select_select_some {d : Data Value} {is : List (Option Nat)} {k : Nat} {i : Option Nat}
    (h : is[k]? = some i) : (d.select is).select [some k] = d.select [i] := by
  rw [select_select, through_single, h, Option.join_some]

theorem isNAAt_select {d : Data Value} (hd : d.kind ≠ .list) {is : List (Option Nat)} {k : Nat}
    (h : is[k]? = some none) : (d.select is).isNAAt k = true := by
  cases d with
  | list xs => exact absurd rfl hd
  | _ =>
    simp [isNAAt, missing, select, mapEach, h, pick, Element.isNA, Element.hole, Double.isNA_na]

end Data

namespace Vec

/-- What stands where no place was read: `NULL` in a list, a missing element in any other
vector. -/
def HoleAt (r : Vec Value) (k : Nat) : Prop :=
  if r.kind = .list then r.element? k = some .null else r.data.isNAAt k = true

theorem holeAt_of_data {r : Vec Value} {d : Data Value} {is : List (Option Nat)} {k : Nat}
    (hr : r.data = d.select is) (h : is[k]? = some none) : r.HoleAt k := by
  have hkind : r.kind = d.kind := by rw [kind, hr, Data.kind_select]
  unfold HoleAt
  cases d with
  | list xs =>
    rw [if_pos (show r.kind = .list from hkind)]
    simp [element?, hr, Data.select, Data.mapEach, h, Data.pick, Element.hole]
  | _ =>
    rw [if_neg (by simp [hkind, Data.kind]), hr]
    exact Data.isNAAt_select (by simp [Data.kind]) h

theorem names?_of_labels {r : Vec Value} {labels : Option (List (Option String))}
    (h : r.attributes = labels.map fun ns => [("names", .vector (.ofStrings ns))]) :
    r.names? = labels ∧ ∀ name, name ≠ "names" → r.attribute? name = none := by
  obtain ⟨d, _, c⟩ := r
  subst h
  cases labels with
  | none => exact ⟨rfl, fun _ _ => rfl⟩
  | some ns =>
    refine ⟨rfl, fun name hname => ?_⟩
    simp [attribute?, List.lookup_cons, beq_false_of_ne hname]

theorem subset_eq_reads {v : Vec Value} (hv : v.NamesFit) {x : Value} {q : Position}
    (hq : (Subscript.given x).position = .ok q) {places : List (Option Nat)}
    (hplaces : places = (Subscript.given x).reads v.length (v.names?.getD [])) :
    ∃ r, v.subset [.given x] = .ok r ∧ r.data = v.data.select places ∧
      r.attributes = (v.names?.map fun ns => places.map (Data.pick ns)).map fun ns =>
        [("names", .vector (.ofStrings ns))] := by
  have hreads : (Selection.ofPosition v .extract q).indices = places :=
    (Selection.indices_eq_reads hq).trans hplaces.symm
  refine ⟨v.picked places, hreads ▸ subset_eq_picked hv hq, rfl, ?_⟩
  rw [picked, Option.map_map]
  rfl

end Vec

/-- `x[p]` for `NULL`, marks, numbers or labels, element by element. It fails exactly when negative
numbers come with positive or missing ones. Otherwise it has the kind of the vector and an element
for each place that is read: the one at that place, or a hole where there is none. Labels are
picked the same way, and there are no other attributes. -/
theorem subset_extraction_pointwise (rs : ω) (v : Vec Value) (x : Value) (drop : Bool)
    (hv : v.NamesFit) (hx : x.kind.isPosition) :
    ((Subscript.given x).Mixed → extract rs (.vector v) [.given x] .subset drop =
      .error (.index (if none ∈ (Subscript.given x).numbers then .missingWithNegative
        else .mixedSigns))) ∧
    (¬(Subscript.given x).Mixed →
      ∃ (r : Vec Value) (places : List (Option Nat)),
        places = (Subscript.given x).reads v.length (v.names?.getD []) ∧
        extract rs (.vector v) [.given x] .subset drop = .ok (.vector r) ∧
        r.kind = v.kind ∧ r.length = places.length ∧
        (∀ k i, places[k]? = some (some i) →
          i < v.length ∧ r.data.select [some k] = v.data.select [some i]) ∧
        (∀ k, places[k]? = some none → r.HoleAt k) ∧
        r.names? = v.names?.map (fun ns => places.map (Data.pick ns)) ∧
        ∀ name, name ≠ "names" → r.attribute? name = none) := by
  rw [extract_subset]
  refine ⟨fun hmixed => ?_, fun hmixed => ?_⟩
  · rw [Vec.subset, Subscript.position_of_mixed hmixed]
    rfl
  obtain ⟨q, hq⟩ := Subscript.position_of_not_mixed hx hmixed
  obtain ⟨r, hr, hdata, hattributes⟩ := Vec.subset_eq_reads hv hq rfl
  obtain ⟨hnames, hothers⟩ := Vec.names?_of_labels hattributes
  refine ⟨r, _, rfl, by rw [hr]; rfl, ?_, ?_, fun k i hi => ⟨?_, ?_⟩,
    fun k hk => Vec.holeAt_of_data hdata hk, hnames, hothers⟩
  · rw [Vec.kind, hdata, Data.kind_select]
    rfl
  · rw [Vec.length, hdata, Data.length_select]
  · refine Selection.lt_of_mem_extract hv.length_le (q := q) ?_
    rw [Selection.indices_eq_reads hq]
    exact List.mem_of_getElem? hi
  · rw [hdata, Data.select_select_some hi]

def labelledPair : Vec Value where
  data := .integer [10, 20]
  attributes := some [("names", .vector (.ofStrings [some "a", some "b"]))]
  complete := true

/-- A mask that is longer than the vector, with a missing mark and a true one past the end, and
numbers with different signs. -/
theorem subset_extraction_pointwise_longMask :
    (∃ r, extract ([] : Records) (.vector labelledPair)
        [.given (.vector (.ofData (.logical [some true, some false, none, some true])))] .subset
        false = .ok (.vector r) ∧
      r.data.select [some 0] = .integer [10] ∧ r.HoleAt 1 ∧ r.HoleAt 2 ∧
      r.names? = some [some "a", none, none]) ∧
    extract ([] : Records) (.vector labelledPair) [.given (.vector (.ofData (.integer [-1, 2])))]
      .subset false = .error (.index .mixedSigns) := by
  have hv : labelledPair.NamesFit := fun ns h => by
    cases h
    rfl
  have hmask : ¬(Subscript.given (.vector
      (.ofData (.logical [some true, some false, none, some true])))).Mixed := fun h => by
    obtain ⟨⟨k, hk, -⟩, -⟩ := h
    cases hk
  obtain ⟨r, places, hplaces, hr, -, -, helements, hholes, hnames, -⟩ :=
    (subset_extraction_pointwise ([] : Records) labelledPair _ false hv rfl).2 hmask
  have hread : places = [some 0, none, none] := hplaces.trans (by decide)
  subst hread
  refine ⟨⟨r, hr, (helements 0 0 rfl).2, hholes 1 rfl, hholes 2 rfl, hnames⟩, ?_⟩
  exact (subset_extraction_pointwise ([] : Records) labelledPair
    (.vector (.ofData (.integer [-1, 2]))) false hv
    rfl).1 ⟨⟨-1, by decide, by decide⟩, .inr ⟨2, by decide, by decide⟩⟩

end LazyVectors
