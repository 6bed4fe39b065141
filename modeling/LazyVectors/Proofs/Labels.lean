import LazyVectors.Proofs.Assignment
set_option autoImplicit false

namespace LazyVectors

theorem placeNames_numbered (ns fresh : List (Option String)) (k : Nat) :
    placeNames (ns ++ List.replicate (fresh.length + k) (some "")) (numbered ns.length fresh) =
      .ok (ns ++ fresh ++ List.replicate k (some "")) := by
  induction fresh generalizing ns with
  | nil => simp [numbered, placeNames]
  | cons l fresh ih =>
    have hlt : ns.length < (ns ++ List.replicate ((l :: fresh).length + k) (some "")).length := by
      simp only [List.length_append, List.length_replicate, List.length_cons]
      omega
    have hset : (ns ++ List.replicate ((l :: fresh).length + k) (some "")).set ns.length l =
        (ns ++ [l]) ++ List.replicate (fresh.length + k) (some "") := by
      rw [List.length_cons, show fresh.length + 1 + k = (fresh.length + k) + 1 by omega,
        List.replicate_succ, List.set_append_right _ _ (Nat.le_refl _)]
      simp
    rw [numbered_cons, placeNames, if_pos hlt, hset]
    have hrest := ih (ns ++ [l])
    rw [List.length_append, List.length_singleton] at hrest
    rw [hrest]
    simp

theorem placeNames_resizeTo {n : Nat} (ns fresh : List (Option String))
    (h : ns.length + fresh.length ≤ n) :
    placeNames (resizeTo n (some "") ns) (numbered ns.length fresh) =
      .ok (ns ++ fresh ++ List.replicate (n - (ns.length + fresh.length)) (some "")) := by
  rw [← placeNames_numbered, resizeTo, List.take_of_length_le (by omega),
    show fresh.length + (n - (ns.length + fresh.length)) = n - ns.length by omega]

theorem labelPlace_replicate (k : Nat) (l : Option String) :
    labelPlace (List.replicate k (some "")) l = none := by
  cases l with
  | none => rfl
  | some name =>
    simp only [labelPlace, Option.bind_some, findName]
    split
    · rfl
    · rename_i hname
      rw [List.findIdx?_eq_none_iff]
      intro m hm
      rw [(List.mem_replicate.1 hm).2]
      refine beq_false_of_ne fun h => hname ?_
      rw [← Option.some.inj h]
      rfl

/-- No label is missing or empty. -/
def Labelled (ls : List (Option String)) : Prop := none ∉ ls ∧ some "" ∉ ls

theorem Labelled.tail {l : Option String} {ls : List (Option String)} (h : Labelled (l :: ls)) :
    Labelled ls :=
  ⟨fun hl => h.1 (List.mem_cons_of_mem _ hl), fun hl => h.2 (List.mem_cons_of_mem _ hl)⟩

theorem labelPlace_singleton {l : Option String} {ls : List (Option String)}
    (h : Labelled (l :: ls)) : labelPlace [l] l = some 0 := by
  cases l with
  | none => exact absurd List.mem_cons_self h.1
  | some name =>
    have hname : ¬name.isEmpty := by
      intro he
      rw [String.isEmpty_iff] at he
      exact h.2 (by simp [he])
    simp [labelPlace, findName, hname]

theorem prefix_freshLabels (ns fresh ls : List (Option String)) :
    fresh <+: freshLabels ns fresh ls := by
  induction ls generalizing fresh with
  | nil => exact List.prefix_refl _
  | cons l ls ih =>
    unfold freshLabels
    split
    · exact ih fresh
    · exact (List.prefix_append fresh [l]).trans (ih _)

theorem labelPlace_freshLabels {ns fresh ls : List (Option String)} {l : Option String} {j : Nat}
    (h : labelPlace fresh l = some j) : labelPlace (freshLabels ns fresh ls) l = some j := by
  obtain ⟨more, hmore⟩ := prefix_freshLabels ns fresh ls
  rw [← hmore, labelPlace_append, h]
  rfl

/-- Where labels were written to is where they are found among the old and the new ones. -/
theorem map_labelPlace_fresh {n : Nat} {ns fresh ls : List (Option String)} (h : Labelled ls) :
    ls.map (fun l => (labelPlace ns l).or
      ((labelPlace (freshLabels ns fresh ls) l).map (n + ·))) =
      (labelSlots n ns fresh ls).map some := by
  induction ls generalizing fresh with
  | nil => rfl
  | cons l ls ih =>
    cases hold : labelPlace ns l with
    | some i =>
      simp only [List.map_cons, labelSlots, freshLabels, hold, Option.some_or, ← ih h.tail]
    | none =>
      cases hnew : labelPlace fresh l with
      | some j =>
        simp only [List.map_cons, labelSlots, freshLabels, hold, hnew, Option.none_or,
          Option.map_some, labelPlace_freshLabels hnew, ← ih h.tail]
      | none =>
        have hlast : labelPlace (fresh ++ [l]) l = some fresh.length := by
          rw [labelPlace_append, hnew, labelPlace_singleton h]
          rfl
        simp only [List.map_cons, labelSlots, freshLabels, hold, hnew, Option.none_or,
          Option.map_none, Option.map_some, labelPlace_freshLabels hlast, ← ih h.tail]

def Position.fresh (ns : List (Option String)) : Position → List (Option String)
  | .named ls => freshLabels ns [] ls
  | _ => []

theorem appended_resolve (n : Nat) (ns : Option (List (Option String))) (q : Position) :
    (Selection.resolve n ns .replace q).appended = numbered n (q.fresh (ns.getD [])) := by
  cases q with
  | named ls =>
    exact congrArg Selection.appended
      (Selection.foldl_addName_replace n (ns.getD []) ls [] ⟨[], n, [], none⟩ rfl)
  | _ => rfl

theorem Position.ofNumbers_ne_named (ks : List (Option Int)) (ls : List (Option String)) :
    ofNumbers ks ≠ .ok (.named ls) := by
  intro h
  simp only [ofNumbers] at h
  split at h
  · split at h <;> cases h
  · split at h
    · cases h
    · split at h <;> cases h

theorem Subscript.position_eq_named {s : Subscript} {ls : List (Option String)}
    (h : s.position = .ok (.named ls)) : ∃ as c, s = .given (.vector ⟨.character ls, as, c⟩) := by
  cases s with
  | omitted => cases h
  | given x =>
    cases x with
    | vector v =>
      obtain ⟨d, as, c⟩ := v
      cases d with
      | character ns =>
        cases h
        exact ⟨as, c, rfl⟩
      | integer ks => exact absurd h (Position.ofNumbers_ne_named _ ls)
      | double xs => exact absurd h (Position.ofNumbers_ne_named _ ls)
      | _ => cases h
    | _ => cases h

theorem reach_mono {n m : Nat} (h : n ≤ m) (ts : List Nat) :
    Selection.reach n ts ≤ Selection.reach m ts := by
  rw [Selection.reach_eq_max, Selection.reach_eq_max]
  omega

theorem add_length_freshLabels_le (n : Nat) (ns fresh ls : List (Option String)) :
    n + (freshLabels ns fresh ls).length ≤
      Selection.reach (n + fresh.length) (labelSlots n ns fresh ls) := by
  induction ls generalizing fresh with
  | nil => exact Nat.le_refl _
  | cons l ls ih =>
    cases hl : (labelPlace ns l).or ((labelPlace fresh l).map (n + ·)) with
    | some i =>
      have hsome : ((labelPlace ns l).or (labelPlace fresh l)).isSome := by
        cases hold : labelPlace ns l with
        | some j => rfl
        | none =>
          cases hnew : labelPlace fresh l with
          | some j => rfl
          | none => simp [hold, hnew] at hl
      obtain ⟨j, hj⟩ := Option.isSome_iff_exists.1 hsome
      simp only [freshLabels, labelSlots, hl, hj, Selection.reach_cons]
      exact Nat.le_trans (ih fresh) (reach_mono (Nat.le_max_left _ _) _)
    | none =>
      obtain ⟨hold, hnew⟩ := Option.or_eq_none_iff.1 hl
      have hnone : (labelPlace ns l).or (labelPlace fresh l) = none := by
        simpa [hold] using hnew
      simp only [freshLabels, labelSlots, hl, hnone, Selection.reach_cons]
      refine Nat.le_trans (ih (fresh ++ [l])) (reach_mono ?_ _)
      rw [List.length_append, List.length_singleton]
      omega

theorem add_length_fresh_le (n : Nat) (ns : Option (List (Option String))) (q : Position) :
    n + (q.fresh (ns.getD [])).length ≤ (Selection.resolve n ns .replace q).length := by
  cases q with
  | named ls =>
    have htargets : (Selection.resolve n ns .replace (.named ls)).targets =
        labelSlots n (ns.getD []) [] ls :=
      (Selection.targets_resolve_replace _ _ _).trans (by
        rw [Selection.places, Selection.foldl_addName_replace n _ ls [] _ rfl]
        exact Selection.targets_map_some _ _ _ _)
    change _ ≤ Selection.reach n (Selection.resolve n ns .replace (.named ls)).targets
    rw [htargets]
    exact add_length_freshLabels_le n (ns.getD []) [] ls
  | _ => exact Selection.le_reach n _

namespace Vec

theorem ofPosition_of_place {v : Vec Value} {l : Option String} {i : Nat}
    (h : labelPlace (v.names?.getD []) l = some i) :
    Selection.ofPosition v .replace (.named [l]) =
      ⟨[some i], max v.length (i + 1), [], none⟩ := by
  have hadd : Selection.addName v.length (v.names?.getD []) .replace ⟨[], v.length, [], none⟩ l =
      ⟨[some i], v.length, [], none⟩ := by
    simp only [Selection.addName, show l.bind (findName (v.names?.getD [])) = some i from h,
      List.nil_append]
  simp only [Selection.ofPosition, Selection.resolve, Selection.places, List.foldl_cons,
    List.foldl_nil, hadd]
  rfl

theorem ofPosition_of_new {v : Vec Value} {l : Option String}
    (h : labelPlace (v.names?.getD []) l = none) :
    Selection.ofPosition v .replace (.named [l]) =
      ⟨[some v.length], v.length + 1, [(v.length, l)], none⟩ := by
  have hadd : Selection.addName v.length (v.names?.getD []) .replace ⟨[], v.length, [], none⟩ l =
      ⟨[some v.length], v.length, [(v.length, l)], none⟩ := by
    simp only [Selection.addName, show l.bind (findName (v.names?.getD [])) = none from h]
    rfl
  have hreach : Selection.reach v.length [v.length] = v.length + 1 :=
    Nat.max_eq_right (Nat.le_succ v.length)
  simp only [Selection.ofPosition, Selection.resolve, Selection.places, List.foldl_cons,
    List.foldl_nil, hadd]
  rw [show Selection.targets ⟨[some v.length], v.length, [(v.length, l)], none⟩ =
    [v.length] from rfl, hreach]

/-- If there are labels of the elements, there is one for each. -/
def NamesFit (v : Vec Value) : Prop := ∀ ns, v.names? = some ns → ns.length = v.length

def paddedNames (v : Vec Value) : List (Option String) :=
  v.names?.getD (List.replicate v.length (some ""))

theorem NamesFit.length_paddedNames {v : Vec Value} (h : v.NamesFit) :
    v.paddedNames.length = v.length := by
  unfold paddedNames
  cases hns : v.names? with
  | none => simp
  | some ns => exact h ns hns

theorem grownNames_ofPosition {v : Vec Value} (h : v.NamesFit) (q : Position) :
    v.grownNames (Selection.ofPosition v .replace q) =
      .ok (v.paddedNames ++ q.fresh (v.names?.getD []) ++ List.replicate
        ((Selection.ofPosition v .replace q).length -
          (v.length + (q.fresh (v.names?.getD [])).length)) (some "")) := by
  have hlen := h.length_paddedNames
  have hle : v.paddedNames.length + (q.fresh (v.names?.getD [])).length ≤
      (Selection.ofPosition v .replace q).length := by
    rw [hlen]
    exact add_length_fresh_le v.length v.names? q
  have happended : (Selection.ofPosition v .replace q).appended =
      numbered v.paddedNames.length (q.fresh (v.names?.getD [])) := by
    rw [hlen]
    exact appended_resolve _ _ _
  rw [grownNames, happended, ← hlen]
  exact hlen ▸ placeNames_resizeTo v.paddedNames _ hle

theorem length_of_store [Memory] {v w : Vec Value} {sel : Selection} {values : Data Value}
    (h : v.store sel values = .ok w) : w.length = max v.length sel.length := by
  obtain ⟨room, hroom, hwritten, -⟩ := store_eq_ok h
  have hlen : w.length = room.length :=
    Data.length_of_writtenTo (Data.writtenTo_of_assignRecycled hwritten)
  rw [hlen]
  split at hroom
  · exact Data.length_extendTo (grow_eq_ok hroom).1
  · rename_i hfits
    cases hroom
    have hle : sel.length ≤ v.length := by simpa [Selection.growsPast] using hfits
    exact (Nat.max_eq_left hle).symm

theorem names?_congr {v w : Vec Value} (h : w.attributes = v.attributes) :
    w.names? = v.names? := by
  unfold names? attribute?
  rw [h]

theorem ofPosition_of_cast {v w : Vec Value} {k : Kind} (h : (v.cast k).result = .ok w)
    (purpose : Purpose) (q : Position) :
    Selection.ofPosition w purpose q = Selection.ofPosition v purpose q := by
  obtain ⟨hdata, hattributes⟩ := cast_eq_ok h
  have hlen : w.length = v.length := (Data.kind_length_of_cast hdata).2
  unfold Selection.ofPosition
  rw [hlen, names?_congr hattributes]

theorem namesFit_of_cast {v w : Vec Value} {k : Kind} (hv : v.NamesFit)
    (h : (v.cast k).result = .ok w) : w.NamesFit := by
  obtain ⟨hdata, hattributes⟩ := cast_eq_ok h
  have hlen : w.length = v.length := (Data.kind_length_of_cast hdata).2
  intro ns hns
  rw [names?_congr hattributes] at hns
  rw [hv ns hns, hlen]

theorem names?_clearDim (v : Vec Value) : v.clearDim.names? = v.names? := by
  unfold names? clearDim
  rw [attribute?_removeAttribute_of_ne _ (by decide),
    attribute?_removeAttribute_of_ne _ (by decide)]

theorem names?_putNames (v : Vec Value) (ns : List (Option String)) :
    (v.putAttribute "names" (.vector (.ofStrings ns))).names? = some ns := by
  unfold names?
  rw [attribute?_putAttribute_self _ _ rfl]
  rfl

theorem appended_eq_nil (v : Vec Value) (q : Position) :
    (Selection.ofPosition v .replace q).appended = [] ↔ q.fresh (v.names?.getD []) = [] := by
  rw [show (Selection.ofPosition v .replace q).appended = _ from appended_resolve _ _ _]
  exact List.length_eq_zero_iff.symm.trans (by simp)

/-- A vector that grows gets its new labels behind the old ones, and empty ones behind them. -/
theorem names?_of_grow [Memory] {v room : Vec Value} {q : Position} (hv : v.NamesFit)
    (hlt : v.length < (Selection.ofPosition v .replace q).length)
    (h : v.grow (Selection.ofPosition v .replace q) = .ok room) :
    room.names? =
      if v.names? = none ∧ q.fresh (v.names?.getD []) = [] then none
      else some (v.paddedNames ++ q.fresh (v.names?.getD []) ++ List.replicate
        (room.length - (v.length + (q.fresh (v.names?.getD [])).length)) (some "")) := by
  have hle := add_length_fresh_le v.length v.names? q
  change _ ≤ (Selection.ofPosition v .replace q).length at hle
  obtain ⟨hlonger, hnone | hsome⟩ := grow_eq_ok h
  · obtain ⟨hnames, happended, hattributes⟩ := hnone
    rw [if_pos ⟨hnames, (appended_eq_nil v q).1 happended⟩, names?_congr hattributes,
      names?_clearDim, hnames]
  · obtain ⟨hnot, ns, hns, -, hattributes⟩ := hsome
    have hroom : room.length = (Selection.ofPosition v .replace q).length :=
      (Data.length_extendTo hlonger).trans (Nat.max_eq_right (Nat.le_of_lt hlt))
    rw [grownNames_ofPosition hv, Except.ok.injEq] at hns
    have hnsLen : ns.length = (Selection.ofPosition v .replace q).length := by
      rw [← hns]
      simp only [List.length_append, List.length_replicate, hv.length_paddedNames]
      omega
    rw [if_neg fun hboth => hnot ⟨hboth.1, (appended_eq_nil v q).2 hboth.2⟩,
      names?_congr hattributes, names?_putNames, hroom, hnsLen, Nat.sub_self,
      List.replicate_zero, List.append_nil, ← hns]

theorem names?_of_store [Memory] {v w : Vec Value} {q : Position} {values : Data Value}
    (hv : v.NamesFit) (h : v.store (Selection.ofPosition v .replace q) values = .ok w) :
    w.names? =
      if v.names? = none ∧ q.fresh (v.names?.getD []) = [] then none
      else some (v.paddedNames ++ q.fresh (v.names?.getD []) ++ List.replicate
        (w.length - (v.length + (q.fresh (v.names?.getD [])).length)) (some "")) := by
  obtain ⟨room, hroom, hwritten, hattributes⟩ := store_eq_ok h
  have hlen : w.length = room.length :=
    Data.length_of_writtenTo (Data.writtenTo_of_assignRecycled hwritten)
  rw [names?_congr hattributes, hlen]
  split at hroom
  · rename_i hgrows
    have hlt : v.length < (Selection.ofPosition v .replace q).length := by
      simpa [Selection.growsPast] using hgrows
    exact names?_of_grow hv hlt hroom
  · rename_i hfits
    cases hroom
    have hle := add_length_fresh_le v.length v.names? q
    change _ ≤ (Selection.ofPosition v .replace q).length at hle
    have hfits' : (Selection.ofPosition v .replace q).length ≤ v.length := by
      simpa [Selection.growsPast] using hfits
    have hfresh : q.fresh (v.names?.getD []) = [] := List.length_eq_zero_iff.1 (by omega)
    simp only [hfresh, and_true, List.append_nil, List.length_nil, Nat.add_zero, Nat.sub_self,
      List.replicate_zero, paddedNames]
    cases v.names? <;> simp

theorem namesFit_of_store [Memory] {v w : Vec Value} {q : Position} {values : Data Value}
    (hv : v.NamesFit) (h : v.store (Selection.ofPosition v .replace q) values = .ok w) :
    w.NamesFit := by
  intro ns hns
  have hlen := length_of_store h
  have hle := add_length_fresh_le v.length v.names? q
  change _ ≤ (Selection.ofPosition v .replace q).length at hle
  rw [names?_of_store hv h] at hns
  split at hns
  · cases hns
  · rw [← Option.some.inj hns]
    simp only [List.length_append, List.length_replicate, hv.length_paddedNames]
    omega

theorem labelPlace_paddedNames (v : Vec Value) (l : Option String) :
    labelPlace v.paddedNames l = labelPlace (v.names?.getD []) l := by
  unfold paddedNames
  cases v.names? with
  | none =>
    refine (labelPlace_replicate _ l).trans ?_
    cases l with
    | none => rfl
    | some name => simp [labelPlace, findName]
  | some ns => rfl

theorem labelPlace_of_store [Memory] {v w : Vec Value} {q : Position} {values : Data Value}
    (hv : v.NamesFit) (h : v.store (Selection.ofPosition v .replace q) values = .ok w)
    (l : Option String) :
    labelPlace (w.names?.getD []) l = (labelPlace (v.names?.getD []) l).or
      ((labelPlace (q.fresh (v.names?.getD [])) l).map (v.length + ·)) := by
  rw [names?_of_store hv h]
  split
  · rename_i hnone
    rw [hnone.1, Option.getD_none, show q.fresh [] = [] by simpa [hnone.1] using hnone.2]
    cases labelPlace [] l <;> rfl
  · rw [Option.getD_some, labelPlace_append, labelPlace_append, labelPlace_replicate,
      labelPlace_paddedNames, hv.length_paddedNames]
    simp

end Vec

end LazyVectors
