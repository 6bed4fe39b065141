import Mathlib.Algebra.Ring.Int.Defs
import LazyVectors.Proofs.GrownAttributes
import LazyVectors.Proofs.PathReadBack
import LazyVectors.Proofs.Subsets
set_option autoImplicit false

namespace LazyVectors

/-- Labels for new places: none of them, unless it is empty, is given twice or known already. -/
def FreshFor (ns fresh : List (Option String)) : Prop :=
  ∀ name, name ≠ "" → fresh.count (some name) ≤ 1 ∧ (some name ∈ fresh → some name ∉ ns)

theorem labelled_singleton {name : String} (h : name ≠ "") : Labelled [some name] := by
  simpa [Labelled, eq_comm] using h

theorem FreshFor.snoc {ns fresh : List (Option String)} {l : Option String} (h : FreshFor ns fresh)
    (hns : labelPlace ns l = none) (hfresh : labelPlace fresh l = none) :
    FreshFor ns (fresh ++ [l]) := by
  intro name hname
  obtain ⟨hcount, hmem⟩ := h name hname
  by_cases hl : l = some name
  · subst hl
    have hunknown := (labelPlace_eq_none_iff (labelled_singleton hname)).1 hns
    have hnew := (labelPlace_eq_none_iff (labelled_singleton hname)).1 hfresh
    refine ⟨?_, fun _ => hunknown⟩
    rw [List.count_append, List.count_eq_zero.2 hnew, List.count_singleton_self]
  · have hne : some name ∉ [l] := fun hin => hl (List.mem_singleton.1 hin).symm
    refine ⟨?_, fun hin => hmem ((List.mem_append.1 hin).resolve_right hne)⟩
    rwa [List.count_append, List.count_eq_zero.2 hne]

theorem FreshFor.freshLabels {ns fresh : List (Option String)} (h : FreshFor ns fresh)
    (ls : List (Option String)) : FreshFor ns (freshLabels ns fresh ls) := by
  induction ls generalizing fresh with
  | nil => exact h
  | cons l ls ih =>
    unfold LazyVectors.freshLabels
    split
    · exact ih h
    · rename_i hnone
      obtain ⟨hns, hfresh⟩ := Option.or_eq_none_iff.1 hnone
      exact ih (h.snoc hns hfresh)

theorem FreshFor.fresh (ns : List (Option String)) (q : Position) : FreshFor ns (q.fresh ns) := by
  have hnil : FreshFor ns [] := fun name _ => ⟨Nat.zero_le _, fun h => (nomatch h)⟩
  rw [Position.fresh_eq]
  exact hnil.freshLabels q.labels

theorem map_fst_numbered (n : Nat) (fresh : List (Option String)) :
    (numbered n fresh).map (·.1) = List.range' n fresh.length := by
  rw [numbered, List.map_map, ← List.zipIdx_map_snd n fresh]
  rfl

theorem map_snd_numbered (n : Nat) (fresh : List (Option String)) :
    (numbered n fresh).map (·.2) = fresh := by
  rw [numbered, List.map_map]
  exact List.zipIdx_map_fst n fresh

namespace Selection

/-- A selection leads only to the `n` places that there are. -/
structure Readable (n : Nat) (sel : Selection) : Prop where
  below : ∀ i, some i ∈ sel.indices → i < n
  length : sel.length = n
  appended : sel.appended = []

/-- A selection holds its own places, and the new ones behind the `n` that there are come in order,
each of them selected, with labels that are new. -/
structure Writable (n : Nat) (ns : List (Option String)) (sel : Selection) : Prop where
  below : ∀ i, some i ∈ sel.indices → i < sel.length
  length : sel.length = max n ((sel.targets.map (· + 1)).max?.getD 0)
  places : sel.appended.map (·.1) = List.range' n sel.appended.length
  selected : ∀ a ∈ sel.appended, some a.1 ∈ sel.indices
  labels : FreshFor ns (sel.appended.map (·.2))

variable {n : Nat} {ns : Option (List (Option String))}

theorem readable_resolve (hns : (ns.getD []).length ≤ n) (q : Position) :
    Readable n (resolve n ns .extract q) := by
  refine ⟨fun i => lt_of_mem_extract hns, ?_, ?_⟩
  all_goals
    cases q with
    | named ls =>
      simp only [resolve, places, foldl_addName_extract]
    | _ => rfl

theorem mem_indices_of_appended {q : Position} {a : Nat × Option String}
    (ha : a ∈ (resolve n ns .replace q).appended) :
    some a.1 ∈ (resolve n ns .replace q).indices := by
  rw [appended_resolve] at ha
  cases q with
  | named ls =>
    have hplace : a.1 ∈ List.range' n (freshLabels (ns.getD []) [] ls).length := by
      rw [← map_fst_numbered]
      exact List.mem_map_of_mem ha
    obtain ⟨hge, hlt⟩ := List.mem_range'_1.1 hplace
    rw [indices_named_replace]
    exact List.mem_map_of_mem (mem_labelSlots hge hlt)
  | _ => cases ha

theorem writable_resolve (q : Position) :
    Writable n (ns.getD []) (resolve n ns .replace q) := by
  have happended := appended_resolve n ns q
  refine ⟨fun i hi => lt_reach n (mem_targets.2 hi), reach_eq_max _ _, ?_,
    fun a ha => mem_indices_of_appended ha, ?_⟩
  · rw [happended, map_fst_numbered, length_numbered]
  · rw [happended, map_snd_numbered]
    exact .fresh _ q

theorem Writable.appended_eq_nil {ns : List (Option String)} {sel : Selection}
    (h : Writable n ns sel) (hlen : sel.length = n) : sel.appended = [] := by
  refine List.eq_nil_iff_forall_not_mem.2 fun a ha => ?_
  have hplace : a.1 ∈ List.range' n sel.appended.length := h.places ▸ List.mem_map_of_mem ha
  have hge := (List.mem_range'_1.1 hplace).1
  have hlt := h.below a.1 (h.selected a ha)
  omega

end Selection

theorem Selection.lt_of_mem_labelSlots {n t : Nat} {ns fresh ls : List (Option String)}
    (hns : ns.length ≤ n) (h : t ∈ labelSlots n ns fresh ls) :
    t < n + fresh.length + ls.length := by
  induction ls generalizing fresh with
  | nil => cases h
  | cons l ls ih =>
    rw [List.length_cons]
    unfold labelSlots at h
    split at h
    · rename_i i hi
      rcases List.mem_cons.1 h with rfl | h
      · rcases Option.or_eq_some_iff.1 hi with hold | ⟨-, hnew⟩
        · have := labelPlace_lt hold
          omega
        · obtain ⟨j, hj, rfl⟩ := Option.map_eq_some_iff.1 hnew
          have := labelPlace_lt hj
          omega
      · have := ih h
        omega
    · rcases List.mem_cons.1 h with rfl | h
      · omega
      · have := ih h
        rw [List.length_append, List.length_singleton] at this
        omega

theorem Selection.mem_numberAims {n i : Nat} {ks : List (Option Int)} (h : i ∈ numberAims n ks) :
    i < n ∨ some (i + 1 : Int) ∈ ks := by
  unfold numberAims at h
  split at h
  · exact .inl (List.mem_range.1 (List.mem_filter.1 h).1)
  · obtain ⟨o, ho, hi⟩ := List.mem_filterMap.1 h
    obtain ⟨k, rfl, hk⟩ := Option.bind_eq_some_iff.1 hi
    obtain ⟨hpos, hplace⟩ := Option.ite_none_right_eq_some.1 hk
    have hnumber : (i + 1 : Int) = k := by
      have := Option.some.inj hplace
      omega
    exact .inr (hnumber ▸ ho)

namespace Double

theorem truncateWithin_bounds {low high : Int} (h : low ≤ high) (x : Double) :
    low ≤ x.truncateWithin low high ∧ x.truncateWithin low high ≤ high := by
  unfold truncateWithin
  split
  · split <;> omega
  · omega

end Double

namespace Subscript

theorem numbers_bounded {s : Subscript} {k : Int} (h : some k ∈ s.numbers) :
    -2 ^ 63 ≤ k ∧ k < 2 ^ 63 := by
  have hmin : Int64.minValue.toInt = -2 ^ 63 := rfl
  have hmax : Int64.maxValue.toInt = 2 ^ 63 - 1 := rfl
  unfold numbers at h
  split at h
  · obtain ⟨i, -, hi⟩ := List.mem_map.1 h
    obtain ⟨-, hk⟩ := Option.ite_none_left_eq_some.1 hi
    obtain rfl := Option.some.inj hk
    have hlow := i.le_toInt
    have hhigh := i.toInt_lt
    omega
  · obtain ⟨x, -, hx⟩ := List.mem_map.1 h
    obtain ⟨-, hk⟩ := Option.ite_none_left_eq_some.1 hx
    have hordered : Int64.minValue.toInt ≤ Int64.maxValue.toInt := by decide
    have hwithin := Double.truncateWithin_bounds hordered x
    rw [Option.some.inj hk, hmin, hmax] at hwithin
    omega
  · cases h
  · cases h

theorem lt_of_mem_aims {n : Nat} {ns : List (Option String)} {s : Subscript} {i : Nat}
    (hn : n < maxLength) (hns : ns.length ≤ n) (hs : ∀ m, s.length? = some m → m < maxLength)
    (h : i ∈ s.aims n ns) : i + 1 < 2 ^ 63 := by
  unfold maxLength at hn hs
  have hnumbers : i ∈ Selection.numberAims n s.numbers → i + 1 < 2 ^ 63 := fun hi => by
    rcases Selection.mem_numberAims hi with hlt | hk
    · omega
    · have := (numbers_bounded hk).2
      omega
  unfold aims at h
  split at h
  · have := List.mem_range.1 h
    omega
  · rename_i bs _ _
    have hlen : bs.length < 4503599627370496 := hs _ rfl
    have := List.mem_range.1 (List.mem_filter.1 h).1
    omega
  · exact hnumbers h
  · exact hnumbers h
  · rename_i ls _ _
    have hlen : ls.length < 4503599627370496 := hs _ rfl
    have hslot := Selection.lt_of_mem_labelSlots hns h
    rw [List.length_nil] at hslot
    omega
  · cases h

end Subscript

/-- What a subscript selects in fewer than 2^52 places, labelled or not. Reading leads to places
that are there. Writing leads to places of the vector as it will be, which is no longer than it has
to be, and the new ones among them have labels of their own. Neither the numbers of the subscript
nor the lengths that they lead to exceed 64 bits. -/
theorem selections_bounded (n : Nat) (ns : Option (List (Option String))) (s : Subscript)
    (q : Position) (hn : n < maxLength) (hns : ∀ ls, ns = some ls → ls.length = n)
    (hs : ∀ m, s.length? = some m → m < maxLength) (hq : s.position = .ok q) :
    (Selection.resolve n ns .extract q).Readable n ∧
    (Selection.resolve n ns .replace q).Writable n (ns.getD []) ∧
    (Selection.resolve n ns .replace q).length ≤ 2 ^ 63 - 1 ∧
    ∀ k, some k ∈ s.numbers → -2 ^ 63 ≤ k ∧ k < 2 ^ 63 := by
  have hle : (ns.getD []).length ≤ n := by
    cases ns with
    | none => exact Nat.zero_le n
    | some ls => exact Nat.le_of_eq (hns ls rfl)
  refine ⟨Selection.readable_resolve hle q, Selection.writable_resolve q, ?_,
    fun k => Subscript.numbers_bounded⟩
  have hshort : n ≤ 2 ^ 63 - 1 := by
    unfold maxLength at hn
    omega
  refine Selection.reach_le hshort fun t ht => ?_
  rw [← Selection.targets_resolve_replace, Selection.targets_eq_aims hq] at ht
  have := Subscript.lt_of_mem_aims hn hle hs ht
  omega

theorem selections_bounded_labels :
    (Selection.resolve 2 (some [some "a", some "b"]) .replace
      (.named [some "b", some "z", some "", some "z", none])).Writable 2 [some "a", some "b"] ∧
    (Selection.resolve 2 (some [some "a", some "b"]) .replace
      (.named [some "b", some "z", some "", some "z", none])).appended =
        [(2, some "z"), (3, some ""), (4, none)] := by
  obtain ⟨-, hwrite, -⟩ := selections_bounded 2 (some [some "a", some "b"])
    (.given (.vector (.ofStrings [some "b", some "z", some "", some "z", none]))) _ (by decide)
    (fun ls hls => by cases hls; rfl) (fun m hm => by cases hm; decide) rfl
  exact ⟨hwrite, rfl⟩

end LazyVectors
