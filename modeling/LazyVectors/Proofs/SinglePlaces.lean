import LazyVectors.Proofs.Bounds
/-!
The one place that a subscript of `[[` leads to. It is found in one way for reading and in
another for writing, and a path is read in the first way and put together again in the second.
-/

set_option autoImplicit false

namespace LazyVectors

theorem map_filter_of_lt {n : Nat} {ts : List Nat} (h : ∀ t ∈ ts, t < n) :
    (ts.map some).map (·.filter (· < n)) = ts.map some := by
  rw [List.map_map]
  exact List.map_congr_left fun t ht => by simp [Option.filter, h t ht]

theorem map_labelPlace_eq {n : Nat} {ns : List (Option String)} (hns : ns.length ≤ n)
    (fresh ls : List (Option String)) : ls.map (labelPlace ns) =
      ((labelSlots n ns fresh ls).map some).map (·.filter (· < n)) := by
  induction ls generalizing fresh with
  | nil => rfl
  | cons l ls ih =>
    cases hold : labelPlace ns l with
    | some i =>
      have hlt : i < n := Nat.lt_of_lt_of_le (labelPlace_lt hold) hns
      simp [labelSlots, hold, hlt, Option.filter, ih fresh]
    | none =>
      cases hnew : labelPlace fresh l with
      | some j => simp [labelSlots, hold, hnew, Option.filter, ih fresh]
      | none => simp [labelSlots, hold, hnew, Option.filter, ih (fresh ++ [l])]

namespace Selection

variable {n : Nat} {ns : Option (List (Option String))}

theorem indices_extract_eq (hns : (ns.getD []).length ≤ n) (q : Position) :
    (resolve n ns .extract q).indices =
      (resolve n ns .replace q).indices.map (·.filter (· < n)) := by
  cases q with
  | everything => exact (map_filter_of_lt fun t ht => List.mem_range.1 ht).symm
  | nothing => rfl
  | excluding es =>
    exact (map_filter_of_lt fun t ht => List.mem_range.1 (mem_of_mem_excludeAscending ht)).symm
  | indices is =>
    rw [SingleIndex.indices_extract]
    simp [resolve, places]
  | mask bs => exact SingleIndex.maskPlaces_extract n bs
  | named ls =>
    rw [indices_named_extract, indices_named_replace]
    exact map_labelPlace_eq hns [] ls

end Selection

/-- The place that `[[` reads is the one place that it writes to, if that is there at all; writing
to it, a vector neither grows nor gets a label. -/
theorem single_place_read_iff_written (v : Vec Value) (s : Subscript) (i : Nat)
    (hv : v.NamesFit) :
    (SingleIndex.ofSubscript v s = .ok (.index i) ↔
      ∃ sel, Selection.ofSingle v s = .ok sel ∧ sel.indices = [some i] ∧ i < v.length) ∧
    (SingleIndex.ofSubscript v s = .ok (.index i) → ∀ sel, Selection.ofSingle v s = .ok sel →
      sel.length = v.length ∧ sel.growsPast v.length = false ∧ sel.appended = []) := by
  have hbelow : SingleIndex.ofSubscript v s = .ok (.index i) → i < v.length := fun h => by
    obtain ⟨p, -, -, hread, -⟩ := SingleIndex.indices_of_index h
    exact Selection.lt_of_mem_extract hv.length_le (hread ▸ List.mem_singleton_self (some i))
  refine ⟨⟨fun h => ?_, ?_⟩, fun h sel hsel => ?_⟩
  · obtain ⟨p, hp, hne, -, hwrite⟩ := SingleIndex.indices_of_index h
    exact ⟨_, Selection.ofSingle_eq_ok hp hne hwrite, hwrite, hbelow h⟩
  · rintro ⟨sel, hsel, hi, hlt⟩
    obtain ⟨p, -, hp, hne, rfl, -⟩ := Selection.ofSingle_cases hsel
    have hread : (Selection.ofPosition v .extract p).indices = [some i] := by
      calc (Selection.ofPosition v .extract p).indices
        _ = (Selection.ofPosition v .replace p).indices.map (·.filter (· < v.length)) :=
          Selection.indices_extract_eq hv.length_le p
        _ = [some i] := by simp [hi, Option.filter, hlt]
    exact bind_eq_ok.2 ⟨p, hp, SingleIndex.ofPosition_of_indices hne hread⟩
  · obtain ⟨sel', hsel', -, hlen, -⟩ := Selection.ofSingle_of_index h (hbelow h)
    obtain rfl : sel' = sel := Except.ok.inj (hsel'.symm.trans hsel)
    obtain ⟨p, -, -, -, rfl, -⟩ := Selection.ofSingle_cases hsel
    refine ⟨hlen, ?_, (Selection.writable_resolve p).appended_eq_nil hlen⟩
    rw [Selection.growsPast, hlen, decide_eq_false (Nat.lt_irrefl _)]

def repeatedLabels : Vec Value where
  data := .integer [7, 8, 9]
  attributes := some [("names", .vector (.ofStrings [some "a", some "b", some "b"]))]
  complete := true

/-- The first place of a label that is there twice is read and written, and so is the last place
that a mask leaves. -/
theorem single_place_read_iff_written_repeated :
    (∃ sel, Selection.ofSingle repeatedLabels (.given (.string "b")) = .ok sel ∧
      sel.indices = [some 1] ∧ sel.appended = []) ∧
    SingleIndex.ofSubscript repeatedLabels
      (.given (.vector (.ofData (.logical [some false, some false, some true])))) =
        .ok (.index 2) := by
  have hfit : repeatedLabels.NamesFit := fun ns hns => by
    cases hns
    rfl
  obtain ⟨hiff, hkept⟩ := single_place_read_iff_written repeatedLabels (.given (.string "b")) 1 hfit
  have hread : SingleIndex.ofSubscript repeatedLabels (.given (.string "b")) = .ok (.index 1) := rfl
  obtain ⟨sel, hsel, hindices, -⟩ := hiff.1 hread
  refine ⟨⟨sel, hsel, hindices, (hkept hread sel hsel).2.2⟩, ?_⟩
  exact (single_place_read_iff_written repeatedLabels _ 2 hfit).1.2 ⟨_, rfl, rfl, by decide⟩

end LazyVectors
