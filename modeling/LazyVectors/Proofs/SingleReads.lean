import LazyVectors.Proofs.PathReadBack
import LazyVectors.Proofs.Subsets
set_option autoImplicit false

namespace LazyVectors

variable {ω : Type} [Foreign ω]

theorem Value.isList_eq_false {v : Vec Value} (hv : v.kind ≠ .list) :
    (Value.vector v).isList = false := by
  obtain ⟨d, as, c⟩ := v
  cases d with
  | list xs => exact absurd rfl hv
  | _ => rfl

theorem Shape.isPath_of_element {v : Vec Value} {s : Subscript} (h : v.kind ≠ .list ∨ s.Single) :
    isPath (.vector v) [s] .element = false :=
  isPath_eq_false fun _ hlist => h.resolve_left fun hv => by
    simp [Value.isList_eq_false hv] at hlist

theorem extract_element (rs : ω) {v : Vec Value} {s : Subscript}
    (h : v.kind ≠ .list ∨ s.Single) (drop : Bool) :
    extract rs (.vector v) [s] .element drop = v.subscript s := by
  have hstrategy : ExtractPlan.strategyOf (.of (.vector v) [s] none .element) = .ok .element :=
    ExtractPlan.strategyOf_element rfl (Data.kind_isVector v.data) rfl (Shape.isPath_of_element h)
  unfold extract ExtractPlan.build
  rw [hstrategy]
  rfl

namespace Vec

/-- The element at a place as a value of its own, that of a missing place being a hole. -/
def elementAt (v : Vec Value) : Option Nat → Option Value
  | some i => v.element? i
  | none => some (if v.kind = .list then .null else .vector (ofData (v.data.select [none])))

variable {v r : Vec Value} {s : Subscript} {y : Value} {i : Option Nat}

theorem subscript_eq_ok (h : v.subscript s = .ok y) : ∃ p r, s.position = .ok p ∧
    SingleIndex.ofPosition v p = .ok r ∧ v.elementAt r.place? = some y := by
  obtain ⟨r, hr, h⟩ := bind_eq_ok.1 h
  obtain ⟨p, hp, hr⟩ := bind_eq_ok.1 hr
  refine ⟨p, r, hp, hr, ?_⟩
  cases r with
  | index i =>
    simp only at h
    split at h
    · rename_i x hx
      cases h
      exact hx
    · cases h
  | missing =>
    simp only at h
    split at h
    · rename_i hlist
      cases h
      exact congrArg some (if_pos hlist)
    · rename_i hatomic
      cases h
      exact congrArg some (if_neg hatomic)
  | notFound =>
    simp only at h
    split at h
    · rename_i hlist
      cases h
      exact congrArg some (if_pos hlist)
    · cases h

theorem element?_of_subscript {n : Nat} (hn : SingleIndex.ofSubscript v s = .ok (.index n))
    (h : v.subscript s = .ok y) : v.element? n = some y := by
  obtain ⟨p, r, hp, hr, hy⟩ := subscript_eq_ok h
  have hsame : SingleIndex.ofSubscript v s = .ok r := bind_eq_ok.2 ⟨p, hp, hr⟩
  rw [hn] at hsame
  cases hsame
  exact hy

theorem subscript_of_index {n : Nat} (hn : SingleIndex.ofSubscript v s = .ok (.index n))
    (hy : v.element? n = some y) : v.subscript s = .ok y := by
  unfold subscript
  rw [hn]
  simp only [bind, Except.bind, hy]
  rfl

theorem element?_of_atomic (hv : v.kind ≠ .list) (n : Nat) : v.element? n =
    if n < v.length then some (.vector (ofData (v.data.select [some n]))) else none := by
  obtain ⟨d, as, c⟩ := v
  cases d with
  | list xs => exact absurd rfl hv
  | _ => rfl

theorem exists_element? {n : Nat} (hn : n < v.length) : ∃ x, v.element? n = some x := by
  obtain ⟨d, as, c⟩ := v
  cases d with
  | list xs => exact ⟨xs[n], List.getElem?_eq_getElem hn⟩
  | _ => exact ⟨_, if_pos hn⟩

theorem elementAt_of_atomic (hv : v.kind ≠ .list) (hy : v.elementAt i = some y) :
    y = .vector (ofData (v.data.select [i])) := by
  cases i with
  | none => exact (Option.some.inj (hy.symm.trans (congrArg some (if_neg hv))))
  | some n =>
    rw [elementAt, element?_of_atomic hv] at hy
    split at hy
    · exact (Option.some.inj hy).symm
    · cases hy

theorem elementAt_of_list {xs : List Value} (hxs : v.data = .list xs)
    (hy : v.elementAt i = some y) : v.data.select [i] = .list [y] := by
  have hpick : Data.pick xs i = y := by
    cases i with
    | none =>
      have hlist : v.kind = .list := congrArg Data.kind hxs
      exact Option.some.inj ((congrArg some (if_pos hlist)).symm.trans hy)
    | some n =>
      have hn : xs[n]? = some y := by
        simpa [elementAt, element?, hxs] using hy
      rw [Data.pick, Option.bind_some, hn, Option.getD_some]
  rw [hxs, ← hpick]
  rfl

theorem elementAt_of_select (hr : r.data = v.data.select [i]) (hy : v.elementAt i = some y) :
    r.element? 0 = some y ∧ (v.kind = .list → r.data = .list [y]) ∧
      (v.kind.isAtomic → y = .vector (ofData r.data)) := by
  by_cases hv : v.kind = .list
  · obtain ⟨xs, hxs⟩ := Data.eq_list_of_kind hv
    have hone : r.data = .list [y] := hr.trans (elementAt_of_list hxs hy)
    refine ⟨?_, fun _ => hone, fun hatomic => by simp [hv, Kind.isAtomic] at hatomic⟩
    simp [element?, hone]
  · have hbare : y = .vector (ofData r.data) := hr ▸ elementAt_of_atomic hv hy
    have hkind : r.kind ≠ .list := by
      rwa [Vec.kind, hr, Data.kind_select]
    refine ⟨?_, fun hlist => absurd hlist hv, fun _ => hbare⟩
    have hlen : r.length = 1 := (congrArg Data.length hr).trans (Data.length_select _ _)
    rw [element?_of_atomic hkind, if_pos (hlen ▸ Nat.one_pos), hbare, hr,
      Data.select_select_some rfl]

end Vec

theorem Position.ofNumbers_ne_everything (ks : List (Option Int)) :
    ofNumbers ks ≠ .ok .everything := by
  intro h
  simp only [ofNumbers] at h
  split at h
  · split at h <;> cases h
  · split at h
    · cases h
    · split at h <;> cases h

theorem Subscript.position_everything {s : Subscript} (h : s.position = .ok .everything) :
    s = .omitted := by
  cases s with
  | omitted => rfl
  | given x =>
    cases x with
    | vector v =>
      obtain ⟨d, as, c⟩ := v
      cases d with
      | integer ks => exact absurd h (Position.ofNumbers_ne_everything _)
      | double xs => exact absurd h (Position.ofNumbers_ne_everything _)
      | _ => cases h
    | _ => cases h

/-- `[[` and `[` read the same element. What `[[` gives is all that `[` selects, and where `[`
selects one place that is there, `[[` gives its element. -/
theorem element_agrees_with_subset (rs : ω) (v : Vec Value) (s : Subscript)
    (drop drop' : Bool) (hv : v.NamesFit) (hgiven : s ≠ .omitted)
    (hone : v.kind.isAtomic ∨ s.Single) :
    (∀ y, extract rs (.vector v) [s] .element drop = .ok y →
      ∃ r : Vec Value, extract rs (.vector v) [s] .subset drop' = .ok (.vector r) ∧
        r.length = 1 ∧ r.element? 0 = some y ∧ (v.kind = .list → r.data = .list [y]) ∧
        (v.kind.isAtomic → y = .vector (.ofData r.data))) ∧
    ∀ p i, s.position = .ok p → (Selection.ofPosition v .extract p).indices = [some i] →
      ∃ y, extract rs (.vector v) [s] .element drop = .ok y ∧ v.element? i = some y := by
  have hlevel : v.kind ≠ .list ∨ s.Single :=
    hone.imp_left fun hatomic hlist => by simp [hlist, Kind.isAtomic] at hatomic
  rw [extract_element rs hlevel, extract_subset]
  constructor
  · intro y hy
    obtain ⟨p, i, hp, hi, hy⟩ := Vec.subscript_eq_ok hy
    obtain ⟨-, hindices⟩ := SingleIndex.ofPosition_eq_ok hi
    obtain ⟨r, hr, hdata⟩ := Vec.subset_eq_ok hv hp
    rw [hindices] at hdata
    refine ⟨r, map_eq_ok.2 ⟨r, hr, rfl⟩, ?_, Vec.elementAt_of_select hdata hy⟩
    exact (congrArg Data.length hdata).trans (Data.length_select _ _)
  · intro p i hp hi
    have hne : p ≠ .everything := fun h => hgiven (Subscript.position_everything (h ▸ hp))
    have hlt : i < v.length :=
      Selection.lt_of_mem_extract hv.length_le (hi ▸ List.mem_singleton_self (some i))
    obtain ⟨y, hy⟩ := Vec.exists_element? hlt
    have hindex : SingleIndex.ofSubscript v s = .ok (.index i) :=
      bind_eq_ok.2 ⟨p, hp, SingleIndex.ofPosition_of_indices hne hi⟩
    exact ⟨y, Vec.subscript_of_index hindex hy, hy⟩

theorem element_agrees_with_subset_negative :
    extract ([] : Records) (.vector (.ofData (.integer [7, 8, 9])))
        [.given (.vector (.ofData (.integer [-1, -3])))] .element true =
      .ok (.vector (.ofData (.integer [8]))) ∧
    ∃ r : Vec Value, extract ([] : Records) (.vector (.ofData (.integer [7, 8, 9])))
        [.given (.vector (.ofData (.integer [-1, -3])))] .subset true = .ok (.vector r) ∧
      r.data = .integer [8] := by
  obtain ⟨hread, hone⟩ := element_agrees_with_subset ([] : Records) (.ofData (.integer [7, 8, 9]))
    (.given (.vector (.ofData (.integer [-1, -3])))) true true (fun ns hns => by cases hns)
    (by simp) (.inl rfl)
  obtain ⟨y, hy, helement⟩ := hone (.excluding [0, 2]) 1 rfl rfl
  obtain rfl : .vector (.ofData (.integer [8])) = y := Option.some.inj helement
  obtain ⟨r, hr, -, -, -, hdata⟩ := hread _ hy
  have hsame := congrArg Vec.data (Value.vector.inj (hdata rfl))
  exact ⟨hy, r, hr, hsame.symm⟩

end LazyVectors
