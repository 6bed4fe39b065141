import LazyVectors.Proofs.Subsets
set_option autoImplicit false

namespace LazyVectors

variable {ω : Type} [Foreign ω]

namespace Vec

variable {v p q : Vec Value}

theorem names?_picked (v : Vec Value) (is : List (Option Nat)) :
    (v.picked is).names? = v.names?.map fun ns => is.map (Data.pick ns) := by
  have hattributes : (v.picked is).attributes = (v.names?.map fun ns => is.map (Data.pick ns)).map
      fun ns => [("names", .vector (.ofStrings ns))] := by
    rw [picked, Option.map_map]
    rfl
  exact (names?_of_labels hattributes).1

theorem length_picked (v : Vec Value) (is : List (Option Nat)) :
    (v.picked is).length = is.length := Data.length_select _ _

theorem namesFit_picked (v : Vec Value) (is : List (Option Nat)) : (v.picked is).NamesFit := by
  intro ns hns
  rw [names?_picked] at hns
  obtain ⟨ms, -, rfl⟩ := Option.map_eq_some_iff.1 hns
  rw [length_picked, List.length_map]

theorem picked_picked (v : Vec Value) (is js : List (Option Nat)) :
    (v.picked is).picked js = v.picked (Data.through is js) := by
  have hdata : (v.data.select is).select js = v.data.select (Data.through is js) :=
    Data.select_select v.data is js
  have hlabels : (v.picked is).names?.map (fun ns => js.map (Data.pick ns)) =
      v.names?.map fun ns => (Data.through is js).map (Data.pick ns) := by
    rw [names?_picked, Option.map_map]
    cases v.names? with
    | none => rfl
    | some ns => exact congrArg some (Data.map_pick_map_pick ns is js)
  have hattributes := congrArg (Option.map fun ns : List (Option String) =>
    [("names", Value.vector (ofStrings ns))]) hlabels
  rw [Option.map_map, Option.map_map] at hattributes
  exact (Vec.mk.injEq ..).symm ▸ ⟨hdata, hattributes, congrArg (fun d => !d.hasNA) hdata⟩

theorem data_of_subset {r : Vec Value} {x : Value} {p : Position}
    (hp : (Subscript.given x).position = .ok p) (h : v.subset [.given x] = .ok r) :
    r.data = v.data.select (Selection.ofPosition v .extract p).indices := by
  rw [subset_given hp] at h
  cases hns : v.names? with
  | none =>
    rw [hns] at h
    cases h
    rfl
  | some ns =>
    rw [hns] at h
    obtain ⟨_, -, h⟩ := bind_eq_ok.1 h
    rw [(setNames_eq_ok.1 h).2]
    rfl

end Vec

def numberPlace (n : Nat) (k : Int32) : Option Nat :=
  (Position.ofInteger k).bind fun k => if (k - 1).toNat < n then some (k - 1).toNat else none

/-- An integer vector of positive numbers, some of which may be missing. -/
structure Vec.Positive (p : Vec Value) (ks : List Int32) : Prop where
  data : p.data = .integer ks
  positive : ∀ k ∈ ks, Element.isNA k = true ∨ 0 < k.toInt

theorem Selection.numberReads_of_positive {ks : List (Option Int)}
    (hks : ∀ k, some k ∈ ks → 0 < k) (n : Nat) : numberReads n ks =
      ks.map fun k => k.bind fun k => if (k - 1).toNat < n then some (k - 1).toNat else none := by
  have hnonnegative : (ks.any fun k => k.any (· < 0)) = false := by
    rw [List.any_eq_false]
    rintro (_ | k) hk hneg
    · cases hneg
    · have := hks k hk
      have := of_decide_eq_true hneg
      omega
  have hnonzero : ks.filter (· != some 0) = ks := by
    refine List.filter_eq_self.2 fun k hk => bne_iff_ne.2 ?_
    rintro rfl
    have := hks 0 hk
    omega
  unfold numberReads
  rw [hnonnegative, hnonzero]
  rfl

namespace Vec.Positive

variable {v p q : Vec Value} {ks js : List Int32}

theorem of_all (h : (ks.all fun k => Element.isNA k || decide (0 < k.toInt)) = true) :
    (Vec.ofData (.integer ks)).Positive ks := by
  refine ⟨rfl, fun k hk => ?_⟩
  have := List.all_eq_true.1 h k hk
  rwa [Bool.or_eq_true, decide_eq_true_iff] at this

theorem number_pos (hp : p.Positive ks) (z : Int) (hz : some z ∈ ks.map Position.ofInteger) :
    0 < z := by
  obtain ⟨k, hk, hkz⟩ := List.mem_map.1 hz
  unfold Position.ofInteger at hkz
  split at hkz
  · cases hkz
  · rename_i hpresent
    rw [← Option.some.inj hkz]
    exact (hp.positive k hk).resolve_left hpresent

theorem position (hp : p.Positive ks) : ∃ pos, (Subscript.given (.vector p)).position = .ok pos ∧
    ∀ v : Vec Value,
      (Selection.ofPosition v .extract pos).indices = ks.map (numberPlace v.length) := by
  have hpos := hp.number_pos
  obtain ⟨d, as, c⟩ := p
  obtain rfl : d = .integer ks := hp.data
  have hmixed : ¬(Subscript.given (.vector ⟨.integer ks, as, c⟩)).Mixed := by
    rintro ⟨⟨z, hz, hneg⟩, -⟩
    have := hpos z hz
    omega
  obtain ⟨pos, hposition⟩ := Subscript.position_of_not_mixed rfl hmixed
  refine ⟨pos, hposition, fun v => ?_⟩
  rw [Selection.ofPosition, Selection.indices_eq_reads hposition]
  exact (Selection.numberReads_of_positive hpos _).trans (List.map_map)

theorem subset (hp : p.Positive ks) (hv : v.NamesFit) :
    v.subset [.given (.vector p)] = .ok (v.picked (ks.map (numberPlace v.length))) := by
  obtain ⟨pos, hposition, hindices⟩ := hp.position
  rw [subset_eq_picked hv hposition, hindices]

theorem select (hp : p.Positive ks) {r : Vec Value} {is : List (Option Nat)}
    (hr : r.data = p.data.select is) : r.Positive (is.map (Data.pick ks)) := by
  refine ⟨by rw [hr, hp.data]; rfl, fun k hk => ?_⟩
  obtain ⟨i, -, rfl⟩ := List.mem_map.1 hk
  cases h : i.bind (ks[·]?) with
  | none =>
    rw [Data.pick, h]
    exact .inl rfl
  | some k =>
    obtain ⟨i, rfl, hi⟩ := Option.bind_eq_some_iff.1 h
    rw [Data.pick, h]
    exact hp.positive k (List.mem_of_getElem? hi)

end Vec.Positive

/-- A number that is read by another number leads where the selection of the one takes the other.
A number that is missing or past the end leads nowhere. -/
theorem map_numberPlace_pick (n : Nat) (ks : List Int32) (is : List (Option Nat)) :
    (is.map (Data.pick ks)).map (numberPlace n) = Data.through (ks.map (numberPlace n)) is := by
  rw [Data.through, List.map_map]
  refine List.map_congr_left fun i _ => ?_
  cases i with
  | none => rfl
  | some i =>
    cases h : ks[i]? with
    | none => simp [Data.pick, h]; rfl
    | some k => simp [Data.pick, h]

/-- `x[p][q]` and `x[p[q]]` are the same for positive or missing numbers, in data, labels and all
else. The one always succeeds, and the other does if `p[q]` does: the labels of `p` have to fit. -/
theorem subset_of_subset (rs : ω) (v p q : Vec Value) (ks js : List Int32) (drop : Bool)
    (hv : v.NamesFit) (hp : p.Positive ks) (hq : q.Positive js) :
    ∃ r w : Vec Value, extract rs (.vector v) [.given (.vector p)] .subset drop = .ok (.vector r) ∧
      extract rs (.vector r) [.given (.vector q)] .subset drop = .ok (.vector w) ∧
      (p.NamesFit → ∃ s, extract rs (.vector p) [.given (.vector q)] .subset drop = .ok s) ∧
      ∀ s, extract rs (.vector p) [.given (.vector q)] .subset drop = .ok s →
        extract rs (.vector v) [.given s] .subset drop = .ok (.vector w) := by
  have hlen : p.length = ks.length := congrArg Data.length hp.data
  have hr : (v.picked (ks.map (numberPlace v.length))).length = ks.length := by
    rw [Vec.length_picked, List.length_map]
  refine ⟨v.picked (ks.map (numberPlace v.length)), v.picked (Data.through
    (ks.map (numberPlace v.length)) (js.map (numberPlace ks.length))), ?_, ?_, fun hnames => ?_,
    fun s hs => ?_⟩
  · rw [extract_subset, hp.subset hv]
    rfl
  · rw [extract_subset, hq.subset (Vec.namesFit_picked _ _), hr, ← Vec.picked_picked]
    rfl
  · rw [extract_subset, hq.subset hnames]
    exact ⟨_, rfl⟩
  · rw [extract_subset] at hs
    obtain ⟨t, ht, rfl⟩ := map_eq_ok.1 hs
    obtain ⟨pos, hposition, hindices⟩ := hq.position
    have hdata := Vec.data_of_subset hposition ht
    rw [hindices, hlen] at hdata
    rw [extract_subset, (hp.select hdata).subset hv, map_numberPlace_pick]
    rfl

/-- A missing number and one past the end in the first subscript, and one past the end in the
second. -/
theorem subset_of_subset_holes :
    ∃ r w s : Vec Value, extract ([] : Records) (.vector labelledPair)
        [.given (.vector (.ofData (.integer [2, Element.hole, 9])))] .subset true =
          .ok (.vector r) ∧
      extract ([] : Records) (.vector r) [.given (.vector (.ofData (.integer [3, 1, 7, 2])))]
        .subset true =
        .ok (.vector w) ∧
      s.data = .integer [9, 2, Element.hole, Element.hole] ∧
      extract ([] : Records) (.vector labelledPair) [.given (.vector s)] .subset true =
        .ok (.vector w) ∧
      w.names? = some [none, some "b", none, none] := by
  have hfirst : (Vec.ofData (.integer [2, Element.hole, 9])).Positive [2, Element.hole, 9] :=
    .of_all (by decide)
  have hsecond : (Vec.ofData (.integer [3, 1, 7, 2])).Positive [3, 1, 7, 2] :=
    .of_all (by decide)
  obtain ⟨r, w, hr, hw, -, hcomposed⟩ := subset_of_subset ([] : Records) labelledPair _ _ _ _ true
    (fun ns h => by cases h; rfl) hfirst hsecond
  have hwhole := hcomposed (.vector (.ofData (.integer [9, 2, Element.hole, Element.hole]))) rfl
  refine ⟨r, w, _, hr, hw, rfl, hwhole, ?_⟩
  cases hwhole
  rfl

end LazyVectors
