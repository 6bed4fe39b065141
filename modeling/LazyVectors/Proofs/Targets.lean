import LazyVectors.Selection
set_option autoImplicit false

namespace LazyVectors

def labelPlace (ns : List (Option String)) (label : Option String) : Option Nat :=
  label.bind (findName ns)

/-- The places that labels are written to behind `n` places labelled `ns`. A label that has no
place gets the next one behind the end, unless it got one there before. -/
def labelSlots (n : Nat) (ns : List (Option String)) :
    List (Option String) → List (Option String) → List Nat
  | _, [] => []
  | fresh, l :: ls =>
    match (labelPlace ns l).or ((labelPlace fresh l).map (n + ·)) with
    | some i => i :: labelSlots n ns fresh ls
    | none => (n + fresh.length) :: labelSlots n ns (fresh ++ [l]) ls

def freshLabels (ns : List (Option String)) :
    List (Option String) → List (Option String) → List (Option String)
  | fresh, [] => fresh
  | fresh, l :: ls =>
    match (labelPlace ns l).or (labelPlace fresh l) with
    | some _ => freshLabels ns fresh ls
    | none => freshLabels ns (fresh ++ [l]) ls

def numbered (n : Nat) (fresh : List (Option String)) : List (Nat × Option String) :=
  (fresh.zipIdx n).map Prod.swap

theorem numbered_cons (n : Nat) (l : Option String) (fresh : List (Option String)) :
    numbered n (l :: fresh) = (n, l) :: numbered (n + 1) fresh := rfl

theorem numbered_append (n : Nat) (fresh : List (Option String)) (l : Option String) :
    numbered n (fresh ++ [l]) = numbered n fresh ++ [(n + fresh.length, l)] := by
  simp [numbered, List.zipIdx_append]

@[simp] theorem length_numbered (n : Nat) (fresh : List (Option String)) :
    (numbered n fresh).length = fresh.length := by
  simp [numbered]

theorem findName_lt {ns : List (Option String)} {name : String} {i : Nat}
    (h : findName ns name = some i) : i < ns.length := by
  unfold findName at h
  split at h
  · cases h
  · exact (List.findIdx?_eq_some_iff_getElem.1 h).1

theorem labelPlace_lt {ns : List (Option String)} {l : Option String} {i : Nat}
    (h : labelPlace ns l = some i) : i < ns.length := by
  obtain ⟨name, -, hname⟩ := Option.bind_eq_some_iff.1 h
  exact findName_lt hname

theorem labelPlace_append (ns ms : List (Option String)) (l : Option String) :
    labelPlace (ns ++ ms) l = (labelPlace ns l).or ((labelPlace ms l).map (ns.length + ·)) := by
  cases l with
  | none => rfl
  | some name =>
    simp only [labelPlace, Option.bind_some, findName]
    split
    · rfl
    · rw [List.findIdx?_append]
      simp [Nat.add_comm]

theorem find?_numbered (n : Nat) (fresh : List (Option String)) (l : Option String) :
    (numbered n fresh).find? (fun a => a.2 == l && !(l.getD "").isEmpty) =
      (labelPlace fresh l).map fun j => (n + j, l) := by
  cases l with
  | none => simp [labelPlace]
  | some name =>
    by_cases hname : name.isEmpty
    · simp [labelPlace, findName, hname]
    · simp only [labelPlace, findName, Option.bind_some, Option.getD_some, hname]
      induction fresh generalizing n with
      | nil => rfl
      | cons m fresh ih =>
        rw [numbered_cons, List.find?_cons, List.findIdx?_cons]
        by_cases hm : m = some name
        · simp [hm]
        · have hm' : (m == some name) = false := beq_false_of_ne hm
          simp only [hm', Bool.false_and, Bool.false_eq_true, if_false, ih, Option.map_map]
          cases fresh.findIdx? (· == some name) with
          | none => rfl
          | some j => simp [Nat.add_assoc, Nat.add_comm 1 j]

namespace Selection

theorem mem_targets {s : Selection} {i : Nat} : i ∈ s.targets ↔ some i ∈ s.indices := by
  simp [targets]

theorem targets_of_indices {s : Selection} {ts : List Nat} (h : s.indices = ts.map some) :
    s.targets = ts := by
  unfold targets
  rw [h]
  simp

theorem targets_of_single {s : Selection} {i : Nat} (h : s.indices = [some i]) :
    s.targets = [i] := targets_of_indices (show s.indices = [i].map some from h)

theorem foldl_addName_extract (n : Nat) (ns wanted : List (Option String)) (s : Selection) :
    wanted.foldl (addName n ns .extract) s =
      { s with indices := s.indices ++ wanted.map (labelPlace ns) } := by
  induction wanted generalizing s with
  | nil => simp
  | cons l ls ih =>
    have hadd : addName n ns .extract s l =
        { s with indices := s.indices ++ [labelPlace ns l] } := by
      unfold addName labelPlace
      cases l.bind (findName ns) <;> rfl
    rw [List.foldl_cons, ih, hadd]
    simp

theorem foldl_addName_replace (n : Nat) (ns wanted fresh : List (Option String)) (s : Selection)
    (hs : s.appended = numbered n fresh) :
    wanted.foldl (addName n ns .replace) s =
      { s with
        indices := s.indices ++ (labelSlots n ns fresh wanted).map some
        appended := numbered n (freshLabels ns fresh wanted) } := by
  -- a label has a place among the old names, among the new ones, or gets the next one
  induction wanted generalizing s fresh with
  | nil => simp [labelSlots, freshLabels, ← hs]
  | cons l ls ih =>
    rw [List.foldl_cons]
    cases hold : labelPlace ns l with
    | some i =>
      have hadd : addName n ns .replace s l = { s with indices := s.indices ++ [some i] } := by
        simp [addName, show l.bind (findName ns) = some i from hold]
      rw [hadd, ih fresh { s with indices := s.indices ++ [some i] } hs]
      simp [labelSlots, freshLabels, hold]
    | none =>
      cases hnew : labelPlace fresh l with
      | some j =>
        have hadd : addName n ns .replace s l =
            { s with indices := s.indices ++ [some (n + j)] } := by
          simp [addName, show l.bind (findName ns) = none from hold, hs, find?_numbered, hnew]
        rw [hadd, ih fresh { s with indices := s.indices ++ [some (n + j)] } hs]
        simp [labelSlots, freshLabels, hold, hnew]
      | none =>
        have hadd : addName n ns .replace s l =
            { s with
              indices := s.indices ++ [some (n + fresh.length)]
              appended := numbered n (fresh ++ [l]) } := by
          simp [addName, show l.bind (findName ns) = none from hold, hs, find?_numbered, hnew,
            numbered_append]
        rw [hadd, ih (fresh ++ [l]) _ rfl]
        simp [labelSlots, freshLabels, hold, hnew]

theorem mem_filterMap_unwanted (ks : List (Option Int)) (i : Nat) :
    i ∈ ks.filterMap Position.unwanted ↔ some (-(i : Int) - 1) ∈ ks := by
  rw [List.mem_filterMap]
  constructor
  · rintro ⟨k, hk, hi⟩
    cases k with
    | none => cases hi
    | some k =>
      simp only [Position.unwanted] at hi
      split at hi
      · have hk' : k = -(i : Int) - 1 := by
          have := Option.some.inj hi
          omega
        rwa [← hk']
      · cases hi
  · intro h
    refine ⟨_, h, ?_⟩
    simp only [Position.unwanted]
    rw [if_pos (by omega)]
    congr 1
    omega

theorem mem_dropWhile_lt (i j : Nat) (es : List Nat) (hj : i ≤ j) :
    j ∈ es.dropWhile (· < i) ↔ j ∈ es := by
  refine ⟨fun h => (List.dropWhile_sublist _).subset h, fun h => ?_⟩
  rw [← List.takeWhile_append_dropWhile (p := (· < i)) (l := es)] at h
  rcases List.mem_append.1 h with h | h
  · have hlt := List.all_eq_true.1 List.all_takeWhile _ h
    have := of_decide_eq_true hlt
    omega
  · exact h

theorem head?_dropWhile_lt (i : Nat) (es : List Nat) (hes : es.Pairwise (· < ·)) :
    (es.dropWhile (· < i)).head? = some i ↔ i ∈ es := by
  rw [← mem_dropWhile_lt i i es (Nat.le_refl i)]
  have hsorted := hes.sublist (List.dropWhile_sublist (· < i))
  have hhead := List.head?_dropWhile_not (· < i) es
  cases hrest : es.dropWhile (· < i) with
  | nil => simp
  | cons m ms =>
    rw [hrest] at hsorted hhead
    have hm : i ≤ m := by simpa using hhead
    rw [List.head?_cons, List.mem_cons]
    refine ⟨fun h => .inl (Option.some.inj h).symm, ?_⟩
    rintro (h | h)
    · rw [h]
    · have := (List.pairwise_cons.1 hsorted).1 i h
      omega

theorem excludeAscending_eq_filter (is es : List Nat) (his : is.Pairwise (· < ·))
    (hes : es.Pairwise (· < ·)) : excludeAscending is es = is.filter (!es.contains ·) := by
  induction is generalizing es with
  | nil => rfl
  | cons i is ih =>
    obtain ⟨hi, his⟩ := List.pairwise_cons.1 his
    have hrest : excludeAscending is (es.dropWhile (· < i)) = is.filter (!es.contains ·) := by
      rw [ih _ his (hes.sublist (List.dropWhile_sublist _))]
      refine List.filter_congr fun j hj => ?_
      have hmem := mem_dropWhile_lt i j es (Nat.le_of_lt (hi j hj))
      have hcontains : (es.dropWhile (· < i)).contains j = es.contains j := by
        rw [Bool.eq_iff_iff, List.contains_iff_mem, List.contains_iff_mem, hmem]
      rw [hcontains]
    have hhead := head?_dropWhile_lt i es hes
    simp only [excludeAscending, hrest, hhead, List.filter_cons]
    by_cases hes' : i ∈ es <;> simp [hes']

theorem excludeAscending_unwanted (n : Nat) (ks : List (Option Int)) :
    excludeAscending (List.range n) (ascending (ks.filterMap Position.unwanted)) =
      (List.range n).filter fun i : Nat => !ks.contains (some (-(i : Int) - 1)) := by
  rw [excludeAscending_eq_filter _ _ List.pairwise_lt_range (pairwise_ascending _)]
  refine List.filter_congr fun i _ => ?_
  have hcontains : (ascending (ks.filterMap Position.unwanted)).contains i =
      ks.contains (some (-(i : Int) - 1)) := by
    rw [Bool.eq_iff_iff, List.contains_iff_mem, List.contains_iff_mem, mem_ascending,
      mem_filterMap_unwanted]
  rw [hcontains]

def numberAims (n : Nat) (ks : List (Option Int)) : List Nat :=
  if ks.any fun k => k.any (· < 0) then
    (List.range n).filter fun i => !ks.contains (some (-(i : Int) - 1))
  else ks.filterMap fun k => k.bind fun k => if 0 < k then some (k - 1).toNat else none

theorem any_negative (ks : List (Option Int)) :
    (ks.any fun k => k.any (· < 0)) = !(ks.filterMap Position.unwanted).isEmpty := by
  induction ks with
  | nil => rfl
  | cons k ks ih =>
    cases k with
    | none =>
      rw [List.any_cons, List.filterMap_cons_none (by rfl), ih]
      rfl
    | some k =>
      by_cases hk : k < 0
      · simp [Position.unwanted, hk]
      · simp [Position.unwanted, hk, ih]

theorem filterMap_wanted (ks : List (Option Int)) :
    (ks.filterMap Position.wanted).filterMap id =
      ks.filterMap fun k => k.bind fun k => if 0 < k then some (k - 1).toNat else none := by
  rw [List.filterMap_filterMap]
  congr 1
  funext k
  cases k with
  | none => rfl
  | some k =>
    by_cases hk : 0 < k <;> simp [Position.wanted, hk]

theorem targets_map_some (is : List Nat) (n : Nat) (as : List (Nat × Option String))
    (ds : Option (List (List (Option Nat)))) : targets ⟨is.map some, n, as, ds⟩ = is :=
  targets_of_indices rfl

theorem targets_ofNumbers {n : Nat} {ns : List (Option String)} {ks : List (Option Int)}
    {q : Position} (h : Position.ofNumbers ks = .ok q) :
    (places n ns .replace q).targets = numberAims n ks := by
  unfold numberAims
  rw [any_negative, ← filterMap_wanted]
  simp only [Position.ofNumbers] at h
  by_cases hneg : (ks.filterMap Position.unwanted).isEmpty
  · rw [if_pos hneg] at h
    have hall : ¬(!(ks.filterMap Position.unwanted).isEmpty) = true := by simp [hneg]
    rw [if_neg hall, ← Except.ok.inj h]
    by_cases hpos : (ks.filterMap Position.wanted).isEmpty
    · rw [if_pos hpos, List.isEmpty_iff.1 hpos]
      rfl
    · rw [if_neg hpos]
      simp [places, targets]
  · rw [if_neg hneg] at h
    split at h
    · cases h
    · split at h
      · cases h
      · cases h
        rw [if_pos (by simpa using hneg), places, targets_map_some, excludeAscending_unwanted]

theorem targets_maskPlaces (n : Nat) (bs : List (Option Bool)) :
    (maskPlaces n .replace bs).filterMap id =
      (List.range (max n bs.length)).filter fun i => bs[i % bs.length]? == some (some true) := by
  by_cases hbs : bs.isEmpty
  · simp [maskPlaces, List.isEmpty_iff.1 hbs]
  · unfold maskPlaces
    rw [if_neg hbs, List.filterMap_filterMap, ← List.filterMap_eq_filter]
    congr 1
    funext i
    cases hb : bs[i % bs.length]? with
    | none => simp [Option.guard, hb]
    | some mark => rcases mark with _ | _ | _ <;> simp [Option.guard, hb]

end Selection

/-- The indices that a write through a subscript reaches in a vector of length `n` with the names
`ns`, in order. -/
def Subscript.aims (n : Nat) (ns : List (Option String)) : Subscript → List Nat
  | .omitted => List.range n
  | .given (.vector ⟨.logical bs, _, _⟩) =>
    (List.range (max n bs.length)).filter fun i => bs[i % bs.length]? == some (some true)
  | .given (.vector ⟨.integer ks, _, _⟩) => Selection.numberAims n (ks.map Position.ofInteger)
  | .given (.vector ⟨.double xs, _, _⟩) => Selection.numberAims n (xs.map Position.ofDouble)
  | .given (.vector ⟨.character ls, _, _⟩) => labelSlots n ns [] ls
  | .given _ => []

namespace Selection

theorem targets_resolve_replace (n : Nat) (ns : Option (List (Option String))) (q : Position) :
    (resolve n ns .replace q).targets = (places n (ns.getD []) .replace q).targets := rfl

/-- The targets of a write, said without resolving the subscript. -/
theorem targets_eq_aims {n : Nat} {ns : Option (List (Option String))} {p : Subscript}
    {q : Position} (h : p.position = .ok q) :
    (resolve n ns .replace q).targets = p.aims n (ns.getD []) := by
  rw [targets_resolve_replace]
  cases p with
  | omitted => cases h; exact targets_map_some _ _ _ _
  | given x =>
    cases x with
    | null => cases h; rfl
    | vector v =>
      obtain ⟨d, as, c⟩ := v
      cases d with
      | logical bs => cases h; exact targets_maskPlaces n bs
      | integer ks => exact targets_ofNumbers h
      | double xs => exact targets_ofNumbers h
      | character ls =>
        cases h
        rw [places, foldl_addName_replace n _ ls [] _ rfl]
        exact targets_map_some _ _ _ _
      | _ => cases h
    | _ => cases h

theorem reach_cons (n t : Nat) (ts : List Nat) : reach n (t :: ts) = reach (max n (t + 1)) ts := rfl

theorem reach_eq_max (n : Nat) (ts : List Nat) :
    reach n ts = max n ((ts.map (· + 1)).max?.getD 0) := by
  induction ts generalizing n with
  | nil => simp [reach]
  | cons t ts ih =>
    rw [reach_cons, ih, List.map_cons, List.max?_cons]
    cases (ts.map (· + 1)).max? <;> simp [Nat.max_assoc]

theorem le_reach (n : Nat) (ts : List Nat) : n ≤ reach n ts := by
  rw [reach_eq_max]
  exact Nat.le_max_left _ _

theorem lt_reach {t : Nat} {ts : List Nat} (n : Nat) (ht : t ∈ ts) : t < reach n ts := by
  induction ts generalizing n with
  | nil => cases ht
  | cons u ts ih =>
    rw [reach_cons]
    rcases List.mem_cons.1 ht with rfl | ht
    · have := le_reach (max n (t + 1)) ts
      omega
    · exact ih _ ht

theorem reach_le {n m : Nat} {ts : List Nat} (hn : n ≤ m) (hts : ∀ t ∈ ts, t < m) :
    reach n ts ≤ m := by
  induction ts generalizing n with
  | nil => exact hn
  | cons u ts ih =>
    rw [reach_cons]
    have hu := hts u List.mem_cons_self
    exact ih (by omega) fun t ht => hts t (List.mem_cons_of_mem _ ht)

theorem reach_of_lt {n : Nat} {ts : List Nat} (h : ∀ t ∈ ts, t < n) : reach n ts = n :=
  Nat.le_antisymm (reach_le (Nat.le_refl n) h) (le_reach n ts)

theorem resolve_inside {n : Nat} {ns : Option (List (Option String))} {purpose : Purpose}
    {p : Position} {os : List (Option Nat)}
    (h : places n (ns.getD []) purpose p = ⟨os, n, [], none⟩) (hos : ∀ o, some o ∈ os → o < n) :
    resolve n ns purpose p = ⟨os, n, [], none⟩ := by
  unfold resolve
  rw [h]
  cases purpose with
  | extract => rfl
  | replace =>
    have hreach : reach n (targets ⟨os, n, [], none⟩) = n :=
      reach_of_lt fun t ht => hos t (mem_targets.1 ht)
    simp only [hreach]

end Selection

/-- An entry of a position is missing. A label never is: it stands for a place of its own. -/
def Position.HasMissing : Position → Prop
  | .indices is => none ∈ is
  | .mask bs => none ∈ bs
  | .everything | .nothing | .excluding _ | .named _ => False

def Subscript.HasMissing : Subscript → Prop
  | .given (.vector ⟨.logical bs, _, _⟩) => none ∈ bs
  | .given (.vector ⟨.integer ks, _, _⟩) => ∃ k ∈ ks, Element.isNA k = true
  | .given (.vector ⟨.double xs, _, _⟩) => ∃ x ∈ xs, x.isNaN = true
  | .omitted | .given _ => False

theorem Position.none_mem_filterMap_wanted (ks : List (Option Int)) :
    none ∈ ks.filterMap wanted ↔ none ∈ ks := by
  rw [List.mem_filterMap]
  constructor
  · rintro ⟨k, hk, hnone⟩
    cases k with
    | none => exact hk
    | some k =>
      simp only [wanted] at hnone
      split at hnone <;> cases hnone
  · exact fun h => ⟨none, h, rfl⟩

theorem Position.hasMissing_ofNumbers {ks : List (Option Int)} {q : Position}
    (h : ofNumbers ks = .ok q) : q.HasMissing ↔ none ∈ ks := by
  rw [← none_mem_filterMap_wanted]
  simp only [ofNumbers] at h
  split at h
  · cases h
    split
    · rename_i hpositive
      simp [HasMissing, List.isEmpty_iff.1 hpositive]
    · rfl
  · split at h
    · cases h
    · rename_i hmissing
      split at h
      · cases h
      · cases h
        rw [none_mem_filterMap_wanted]
        simpa [HasMissing] using hmissing

theorem Subscript.hasMissing_position {p : Subscript} {q : Position} (h : p.position = .ok q) :
    q.HasMissing ↔ p.HasMissing := by
  cases p with
  | omitted => cases h; rfl
  | given x =>
    cases x with
    | null => cases h; rfl
    | vector v =>
      obtain ⟨d, as, c⟩ := v
      cases d with
      | logical bs => cases h; rfl
      | integer ks =>
        rw [Position.hasMissing_ofNumbers h]
        simp [HasMissing, Position.ofInteger]
      | double xs =>
        rw [Position.hasMissing_ofNumbers h]
        simp [HasMissing, Position.ofDouble]
      | character ls => cases h; rfl
      | _ => cases h
    | _ => cases h

namespace Selection

theorem exists_mark {n i : Nat} {bs : List (Option Bool)}
    (hi : i ∈ List.range (if bs.isEmpty then 0 else max n bs.length)) :
    ∃ b ∈ bs, bs[i % bs.length]? = some b := by
  have hpos : 0 < bs.length := by
    cases bs with
    | nil => cases hi
    | cons b bs => exact Nat.succ_pos _
  have hlt : i % bs.length < bs.length := Nat.mod_lt i hpos
  exact ⟨_, List.getElem_mem hlt, List.getElem?_eq_getElem hlt⟩

theorem none_mem_maskPlaces (n : Nat) (bs : List (Option Bool)) :
    none ∈ maskPlaces n .replace bs ↔ none ∈ bs := by
  unfold maskPlaces
  rw [List.mem_filterMap]
  constructor
  · rintro ⟨i, hi, hnone⟩
    obtain ⟨b, hb, hmark⟩ := exists_mark hi
    rcases b with _ | _ | _
    · exact hb
    · simp [hmark] at hnone
    · simp [hmark] at hnone
  · intro h
    obtain ⟨i, hi, hb⟩ := List.mem_iff_getElem.1 h
    have hne : bs.isEmpty = false := List.isEmpty_eq_false_iff.2 (List.ne_nil_of_mem h)
    refine ⟨i, by simp [hne]; omega, ?_⟩
    simp [Nat.mod_eq_of_lt hi, List.getElem?_eq_getElem hi, hb]

theorem indices_named_extract (n : Nat) (ns : Option (List (Option String)))
    (ls : List (Option String)) : (resolve n ns .extract (.named ls)).indices =
      ls.map (labelPlace (ns.getD [])) :=
  congrArg indices (foldl_addName_extract n (ns.getD []) ls ⟨[], n, [], none⟩)

theorem indices_named_replace (n : Nat) (ns : Option (List (Option String)))
    (ls : List (Option String)) : (resolve n ns .replace (.named ls)).indices =
      (labelSlots n (ns.getD []) [] ls).map some :=
  congrArg indices (foldl_addName_replace n (ns.getD []) ls [] ⟨[], n, [], none⟩ rfl)

theorem none_mem_indices_iff {n : Nat} {ns : Option (List (Option String))} {q : Position} :
    none ∈ (resolve n ns .replace q).indices ↔ q.HasMissing := by
  cases q with
  | indices is =>
    have his : (resolve n ns .replace (.indices is)).indices = is := by simp [resolve, places]
    rw [his]
    rfl
  | mask bs => exact none_mem_maskPlaces n bs
  | named ls => simp [indices_named_replace, Position.HasMissing]
  | everything => simp [resolve, places, Position.HasMissing]
  | nothing => simp [resolve, places, Position.HasMissing]
  | excluding es => simp [resolve, places, Position.HasMissing]

end Selection

end LazyVectors
