import LazyVectors.Proofs.PathReading
import LazyVectors.Proofs.ReadBack
set_option autoImplicit false

namespace LazyVectors

variable {ω : Type} [Foreign ω]

theorem labelPlace_cons_self {l : Option String} (hl : Labelled [l])
    (ns : List (Option String)) : labelPlace (l :: ns) l = some 0 := by
  rw [← List.singleton_append, labelPlace_append, labelPlace_singleton hl]
  rfl

theorem labelPlace_eq_none_iff {l : Option String} (hl : Labelled [l])
    {ns : List (Option String)} : labelPlace ns l = none ↔ l ∉ ns := by
  have hself : labelPlace [l] l = some 0 := labelPlace_singleton hl
  cases l with
  | none => cases hself
  | some name =>
    have hname : ¬name.isEmpty := fun he => by simp [labelPlace, findName, he] at hself
    simp only [labelPlace, Option.bind_some, findName, hname, Bool.false_eq_true, if_false,
      List.findIdx?_eq_none_iff, beq_eq_false_iff_ne]
    exact ⟨fun h hmem => h _ hmem rfl, fun h m hm hsame => h (hsame ▸ hm)⟩

theorem labelPlace_take {ns : List (Option String)} {l : Option String} {i m : Nat}
    (h : labelPlace ns l = some i) (hi : i < m) : labelPlace (ns.take m) l = some i := by
  have hlt := labelPlace_lt h
  rw [← List.take_append_drop m ns, labelPlace_append] at h
  cases hfirst : labelPlace (ns.take m) l with
  | some j =>
    rw [hfirst] at h
    exact h
  | none =>
    rw [hfirst, Option.none_or] at h
    obtain ⟨k, -, hk⟩ := Option.map_eq_some_iff.1 h
    rw [List.length_take] at hk
    omega

theorem labelPlace_set {ns : List (Option String)} {l : Option String} {i : Nat}
    (hl : Labelled [l]) (hnew : l ∉ ns) (hi : i < ns.length) :
    labelPlace (ns.set i l) l = some i := by
  have hbefore : labelPlace (ns.take i) l = none :=
    (labelPlace_eq_none_iff hl).2 fun hmem => hnew (List.mem_of_mem_take hmem)
  rw [List.set_eq_take_append_cons_drop, if_pos hi, labelPlace_append, hbefore,
    labelPlace_cons_self hl, List.length_take, Nat.min_eq_left (Nat.le_of_lt hi)]
  rfl

theorem length_resizeTo {α : Type} (n : Nat) (fill : α) (xs : List α) :
    (resizeTo n fill xs).length = n := by
  rw [resizeTo, List.length_append, List.length_take, List.length_replicate]
  omega

namespace Vec

theorem labelPlace_of_grow [Memory] {v room : Vec Value} {sel : Selection}
    {ns : List (Option String)} {l : Option String} {i : Nat}
    (hsome : ¬(v.names? = none ∧ sel.appended = []))
    (hns : v.grownNames sel = .ok ns) (hi : labelPlace ns l = some i)
    (h : v.grow sel = .ok room) : labelPlace (room.names?.getD []) l = some i := by
  obtain ⟨-, ⟨hnone, happended, -⟩ | ⟨-, ns', hns', -, hattributes⟩⟩ := grow_eq_ok h
  · exact absurd ⟨hnone, happended⟩ hsome
  · obtain rfl : ns' = ns := Except.ok.inj (hns'.symm.trans hns)
    rw [names?_congr hattributes, names?_putNames, Option.getD_some, labelPlace_append, hi]
    rfl

/-- A label that has a place is found there afterwards, even if it stood behind the last element
and a vector that grows cut off the labels behind it. -/
theorem labelPlace_of_store_place [Memory] {v w : Vec Value} {l : Option String} {i : Nat}
    {values : Data Value} (hi : labelPlace (v.names?.getD []) l = some i)
    (h : v.store (Selection.ofPosition v .replace (.named [l])) values = .ok w) :
    labelPlace (w.names?.getD []) l = some i := by
  rw [ofPosition_of_place hi] at h
  obtain ⟨room, hroom, -, hattributes⟩ := store_eq_ok h
  rw [names?_congr hattributes]
  split at hroom
  · have hlabelled : v.names? ≠ none := fun hnone => by
      rw [hnone] at hi
      exact absurd (labelPlace_lt hi) (Nat.not_lt_zero i)
    have hplace : labelPlace v.paddedNames l = some i := (labelPlace_paddedNames v l).trans hi
    refine labelPlace_of_grow (fun hboth => hlabelled hboth.1) rfl ?_ hroom
    change labelPlace (resizeTo (max v.length (i + 1)) (some "") v.paddedNames) l = some i
    rw [resizeTo, labelPlace_append, labelPlace_take hplace (by omega)]
    rfl
  · cases hroom
    exact hi

theorem labelPlace_of_store_new [Memory] {v w : Vec Value} {l : Option String} {values : Data Value}
    (hl : Labelled [l]) (hnone : labelPlace (v.names?.getD []) l = none)
    (h : v.store (Selection.ofPosition v .replace (.named [l])) values = .ok w) :
    labelPlace (w.names?.getD []) l = some v.length := by
  rw [ofPosition_of_new hnone] at h
  obtain ⟨room, hroom, -, hattributes⟩ := store_eq_ok h
  have hgrows : Selection.growsPast ⟨[some v.length], v.length + 1, [(v.length, l)], none⟩
      v.length = true := decide_eq_true (Nat.lt_succ_self v.length)
  rw [if_pos hgrows] at hroom
  rw [names?_congr hattributes]
  have hlt : v.length < (resizeTo (v.length + 1) (some "") v.paddedNames).length := by
    rw [length_resizeTo]
    exact Nat.lt_succ_self v.length
  have hnew : l ∉ resizeTo (v.length + 1) (some "") v.paddedNames := by
    have hpadded : l ∉ v.paddedNames :=
      (labelPlace_eq_none_iff hl).1 ((labelPlace_paddedNames v l).trans hnone)
    intro hmem
    rcases List.mem_append.1 hmem with hmem | hmem
    · exact hpadded (List.mem_of_mem_take hmem)
    · exact hl.2 ((List.mem_replicate.1 hmem).2 ▸ List.mem_singleton_self l)
  have hnames : v.grownNames ⟨[some v.length], v.length + 1, [(v.length, l)], none⟩ =
      .ok ((resizeTo (v.length + 1) (some "") v.paddedNames).set v.length l) := if_pos hlt
  exact labelPlace_of_grow (by simp) hnames (labelPlace_set hl hnew hlt) hroom

theorem labelPlace_of_store_one [Memory] {v w : Vec Value} {l : Option String} {i : Nat}
    {values : Data Value} (hl : Labelled [l])
    (hi : (Selection.ofPosition v .replace (.named [l])).indices = [some i])
    (h : v.store (Selection.ofPosition v .replace (.named [l])) values = .ok w) :
    labelPlace (w.names?.getD []) l = some i := by
  cases hold : labelPlace (v.names?.getD []) l with
  | some j =>
    rw [ofPosition_of_place hold] at hi
    cases hi
    exact labelPlace_of_store_place hold h
  | none =>
    rw [ofPosition_of_new hold] at hi
    cases hi
    exact labelPlace_of_store_new hl hold h

end Vec

namespace Selection

theorem definite_of_indices {n i : Nat} {ns : Option (List (Option String))} {p : Position}
    (h : (resolve n ns .replace p).indices = [some i])
    (hlabels : ∀ ls, p = .named ls → Labelled ls) : p.Definite := by
  refine Position.definite_iff.2 ⟨fun hmissing => ?_, hlabels⟩
  have hnone : none ∈ (resolve n ns .replace p).indices := none_mem_indices_iff.2 hmissing
  simp [h] at hnone

end Selection

theorem Vec.indices_of_store_one [Memory] {v w : Vec Value} {p : Position} {i : Nat}
    {values : Data Value} (hlabels : ∀ ls, p = .named ls → Labelled ls)
    (hi : (Selection.ofPosition v .replace p).indices = [some i])
    (h : v.store (Selection.ofPosition v .replace p) values = .ok w) :
    (Selection.ofPosition w .extract p).indices = [some i] := by
  have hle : v.length ≤ (Selection.ofPosition v .replace p).length := Selection.le_reach _ _
  rw [← hi]
  refine Selection.indices_read_back (Selection.definite_of_indices hi hlabels) ?_ ?_
  · rw [length_of_store h]
    exact Nat.max_eq_right hle
  · rintro ls rfl
    have hone : ls.length = 1 := by
      have hslots := (Selection.indices_named_replace v.length v.names? ls).symm.trans hi
      have hcount := congrArg List.length hslots
      rwa [List.length_map, length_labelSlots] at hcount
    obtain ⟨l, rfl⟩ := List.length_eq_one_iff.1 hone
    change [labelPlace (w.names?.getD []) l] = _
    rw [labelPlace_of_store_one (hlabels [l] rfl) hi h]
    exact hi.symm

theorem SingleIndex.ofPosition_of_indices {v : Vec Value} {p : Position} {i : Nat}
    (hne : p ≠ .everything) (h : (Selection.ofPosition v .extract p).indices = [some i]) :
    ofPosition v p = .ok (.index i) := by
  unfold ofPosition
  split
  · exact absurd rfl hne
  · cases h
  · rename_i name
    have hplaces := (Selection.indices_named_extract _ _ [some name]).symm.trans h
    have hname : v.names?.bind (findName · name) = some i := by
      rw [← labelPlace_getD]
      simpa using hplaces
    rw [hname]
  · cases h
  · rename_i j
    by_cases hj : j < v.length
    · have hsame : j = i := by
        simpa [Selection.ofPosition, Selection.resolve, Selection.places, hj] using h
      rw [if_pos hj, hsame]
    · simp [Selection.ofPosition, Selection.resolve, Selection.places, hj] at h
  · rw [h]
    rfl

theorem Value.assignElement_read_back [Memory] {v w : Vec Value} (hv : v.kind = .list)
    {s : Subscript} (hlabels : ∀ ls, s.position = .ok (.named ls) → Labelled ls) {y : Value}
    (h : ((Value.vector v).assignElement s y .list).result = .ok w) :
    w.kind = .list ∧
      ∃ i, SingleIndex.ofSubscript w s = .ok (.index i) ∧ w.element? i = some y := by
  rw [assignElement_eq (e := .ofList [y]) rfl, Noted.result_bind] at h
  obtain ⟨sel, hsel, h⟩ := bind_eq_ok.1 h
  obtain ⟨p, i, hp, hne, rfl, hi⟩ := Selection.ofSingle_cases hsel
  obtain ⟨-, old, values, hold, hvalues, hstore⟩ := Vec.assign_eq_ok h
  obtain rfl : v = old := by
    rw [show v.cast .list = .ok v from if_pos hv] at hold
    exact Except.ok.inj hold
  obtain rfl : Data.list [y] = values := Except.ok.inj hvalues
  have htargets := Selection.targets_of_single hi
  have hover : v.data.Overwritten [i] (.list [y]) w.data :=
    htargets ▸ Vec.overwritten_of_store rfl (fun _ => Nat.one_pos) hstore
  have hkind : w.kind = .list := hover.kind.trans hv
  -- the step leads to the place that was written, although a label may have come behind the last
  have hindex : SingleIndex.ofSubscript w s = .ok (.index i) := by
    unfold SingleIndex.ofSubscript
    rw [hp]
    exact SingleIndex.ofPosition_of_indices hne
      (Vec.indices_of_store_one (fun ls hls => hlabels ls (hls ▸ hp)) hi hstore)
  refine ⟨hkind, i, hindex, ?_⟩
  have hlast := (hover.last 0 i rfl fun j hj => by
    rw [List.getElem?_eq_none (show [i].length ≤ j from hj)]
    simp).2
  have hlt : i < w.data.length := by
    rw [hover.length]
    exact Nat.lt_of_lt_of_le (Nat.lt_succ_self i) (Nat.le_max_right _ _)
  cases hw : w.data with
  | list xs =>
    rw [hw] at hlast hlt
    have hpick : Data.pick xs (some i) = y := by
      simpa [Data.select, Data.mapEach, Data.pick] using hlast
    have helement : xs[i]? = some xs[i] := List.getElem?_eq_getElem hlt
    rw [Data.pick, Option.bind_some, helement, Option.getD_some] at hpick
    simp only [Vec.element?, hw, helement, hpick]
  | _ => simp [Vec.kind, Data.kind, hw] at hkind

theorem extractSteps_cons (rs : ω) (level : Nat) (x : Value) (s : Subscript)
    {ss : List Subscript} (hss : ss ≠ []) : extractSteps rs level x (s :: ss) = (do
      x.checkLevel level
      extractSteps rs (level + 1) (← extractStep rs x s) ss) := by
  cases ss with
  | nil => exact absurd rfl hss
  | cons t rest => rfl

/-- Where the steps led to a list when the value was written, they lead to the value afterwards. -/
theorem replaceSteps_read_back [Memory] {rs rs' : ω} {level : Nat} {x value y : Value}
    {z : Vec Value} {last : Subscript} {steps : List Subscript} (hsteps : ∀ s ∈ steps, s.Single)
    (hlast : last.Single) (hlabels : ∀ ls, last.position = .ok (.named ls) → Labelled ls)
    (hvalue : value ≠ .null) (hz : x.along rs steps = .ok (.vector z)) (hlist : z.kind = .list)
    (h : (replaceSteps rs level x last value steps).result = .ok (y, rs')) :
    ∃ w : Vec Value, y = .vector w ∧ w.kind = .list ∧
      ∀ (rs'' : ω) (level' : Nat),
        extractSteps rs'' level' y (steps ++ [last]) = .ok value := by
  induction steps generalizing level x y rs' with
  | nil =>
    cases hz
    have h : (replaceStep rs (.vector z) last value).result = .ok (y, rs') := h
    rw [replaceStep_list rs hlist hlast hvalue, Noted.result_bind] at h
    obtain ⟨w, hw, h⟩ := bind_eq_ok.1 h
    cases h
    obtain ⟨hkind, i, hi, helement⟩ := Value.assignElement_read_back hlist hlabels hw
    exact ⟨w, rfl, hkind, fun rs'' _ => extractStep_vector rs'' hlast hi helement⟩
  | cons s rest ih =>
    have hs : s.Single := hsteps s List.mem_cons_self
    obtain ⟨v, i, c, d, rs₁, rfl, hv, hi, hc, hd, hy⟩ := replaceSteps_cons_eq_ok h
    rw [Value.along_cons (extractStep_vector rs hs hi hc)] at hz
    obtain ⟨u, rfl, -, hread⟩ := ih (fun t ht => hsteps t (List.mem_cons_of_mem _ ht)) hz hd
    obtain ⟨w, rfl, -, hsame, hw⟩ :=
      replaceStep_list_eq_ok hv hs hi (Vec.lt_of_element? hc) (by simp) hy
    have hkind : w.kind = .list := hsame.list.2
    have hback : SingleIndex.ofSubscript w s = .ok (.index i) :=
      (SingleIndex.ofSubscript_congr hsame.length hsame.attributes s).trans hi
    refine ⟨w, rfl, hkind, fun rs'' level' => ?_⟩
    rw [List.cons_append, extractSteps_cons _ _ _ _ (by simp),
      checkLevel_of_isList (Value.isList_of_kind hkind), extractStep_vector rs'' hs hback hw]
    exact hread rs'' (level' + 1)

theorem Value.stepwise_of_single {rs : ω} {x : Value} {steps : List Subscript}
    (h : ∀ s ∈ steps, s.Single) (drop : Bool) : x.stepwise rs drop steps = x.along rs steps := by
  induction steps generalizing x with
  | nil => rfl
  | cons s ss ih =>
    rw [stepwise_cons, extract_single rs x (h s List.mem_cons_self), along, List.foldlM_cons]
    congr 1
    funext y
    exact ih fun t ht => h t (List.mem_cons_of_mem _ ht)

theorem Vec.last_step {path : Vec Value} (hatomic : path.kind.isAtomic) {init : List Subscript}
    {last : Subscript} (h : path.elements.map Subscript.given = init ++ [last]) :
    last = .given (.vector (.ofData (path.data.select [some (path.length - 1)]))) := by
  have hlast := congrArg List.getLast? h
  rw [elements_of_atomic hatomic, List.map_map, List.getLast?_map, List.getLast?_range,
    List.getLast?_concat] at hlast
  split at hlast
  · cases hlast
  · exact (Option.some.inj hlast).symm

theorem Vec.labelled_last_step {path : Vec Value} (hatomic : path.kind.isAtomic)
    (hpos : 0 < path.length) (hlabels : ∀ ls, path.data = .character ls →
      ls.getLast? ≠ some none ∧ ls.getLast? ≠ some (some ""))
    {init : List Subscript} {last : Subscript}
    (h : path.elements.map Subscript.given = init ++ [last]) {ls : List (Option String)}
    (hls : last.position = .ok (.named ls)) : Labelled ls := by
  obtain ⟨as, c, hcharacter⟩ := Subscript.position_eq_named hls
  have hselect : path.data.select [some (path.length - 1)] = .character ls :=
    congrArg Vec.data (Value.vector.inj (Subscript.given.inj
      ((last_step hatomic h).symm.trans hcharacter)))
  cases hd : path.data with
  | character ns =>
    have hcount : path.length = ns.length := congrArg Data.length hd
    have hlt : ns.length - 1 < ns.length := by omega
    have hlast : ns.getLast? = some ns[ns.length - 1] := by
      rw [List.getLast?_eq_getElem?, List.getElem?_eq_getElem hlt]
    have hpick : Data.pick ns (some (ns.length - 1)) = ns[ns.length - 1] := by
      simp only [Data.pick, Option.bind_some, List.getElem?_eq_getElem hlt, Option.getD_some]
    have hone : [ns[ns.length - 1]] = ls := by
      rw [hd, hcount] at hselect
      rw [← hpick]
      exact Data.character.inj hselect
    obtain ⟨hmissing, hempty⟩ := hlabels ns hd
    rw [hlast] at hmissing hempty
    rw [← hone]
    exact ⟨fun hmem => hmissing (congrArg some (List.mem_singleton.1 hmem).symm),
      fun hmem => hempty (congrArg some (List.mem_singleton.1 hmem).symm)⟩
  | _ =>
    rw [hd] at hselect
    cases hselect

/-- `x[[path]]` after `x[[path]] <- value` is the value as a whole, whatever the steps are, if the
innermost container was a list; a label that the last step asks for has to be one. -/
theorem path_read_after_write [Memory] (rs rs' : ω) (v path z : Vec Value) (value y : Value)
    (drop : Bool) (hv : v.kind = .list) (hatomic : path.kind.isAtomic) (hlen : 2 ≤ path.length)
    (hlabels : ∀ ls, path.data = .character ls →
      ls.getLast? ≠ some none ∧ ls.getLast? ≠ some (some ""))
    (hvalue : value ≠ .null)
    (hz : (Value.vector v).stepwise rs drop (path.elements.map Subscript.given).dropLast =
      .ok (.vector z)) (hlist : z.kind = .list)
    (h : (replace rs (.vector v) [.given (.vector path)] value .element).result =
      .ok (y, rs')) :
    extract rs' y [.given (.vector path)] .element drop = .ok value := by
  obtain ⟨hcount, hsingle⟩ := elements_single hatomic
  have hsteps : (Value.vector path).steps = .ok (path.elements.map .given) := if_pos hatomic
  rw [replace_path rs hv hlen] at h
  rcases List.eq_nil_or_concat (path.elements.map Subscript.given) with hnil | ⟨init, last, hcut⟩
  · rw [List.map_eq_nil_iff] at hnil
    rw [hnil, List.length_nil] at hcount
    omega
  rw [List.concat_eq_append] at hcut
  rw [hcut] at hsingle
  have hinit : ∀ s ∈ init, s.Single := fun s hs => hsingle s (List.mem_append_left _ hs)
  rw [hcut, List.dropLast_concat, Value.stepwise_of_single hinit] at hz
  rw [replacePath_eq (hsteps.trans (congrArg _ hcut))] at h
  obtain ⟨w, rfl, hw, hread⟩ := replaceSteps_read_back hinit
    (hsingle last (List.mem_append_right _ (List.mem_singleton_self last)))
    (fun ls => Vec.labelled_last_step hatomic (by omega) hlabels hcut) hvalue hz hlist h
  rw [extract_path rs' hw hatomic hlen, hcut]
  exact hread rs' 1

def emptyMember : Vec Value where
  data := .list [.vector (.ofList [])]
  attributes := some [("names", .vector (.ofStrings [some "a"]))]
  complete := true

section

attribute [local instance] Memory.unbounded

theorem path_read_after_write_new_member :
    ∃ y rs', (replace ([] : Records) (.vector emptyMember)
        [.given (.vector (.ofStrings [some "a", some "b"]))]
        (.vector ⟨.integer [7], some [("unit", .string "kg")], true⟩) .element).result =
          .ok (y, rs') ∧
      extract rs' y [.given (.vector (.ofStrings [some "a", some "b"]))] .element true =
        .ok (.vector ⟨.integer [7], some [("unit", .string "kg")], true⟩) := by
  refine ⟨_, _, rfl, ?_⟩
  refine path_read_after_write [] _ emptyMember (.ofStrings [some "a", some "b"]) (.ofList []) _ _
    true rfl rfl (by decide) (fun ls hls => ?_) (by simp) rfl rfl rfl
  cases hls
  decide

end

end LazyVectors
