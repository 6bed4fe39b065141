import LazyVectors.Access.Extract
import LazyVectors.Proofs.Deletion
set_option autoImplicit false

namespace LazyVectors

variable {ω : Type} [Foreign ω]

/-- `x[[s₁]][[s₂]]…`. -/
def Value.along (rs : ω) (x : Value) (steps : List Subscript) : Except Failure Value :=
  steps.foldlM (extractStep rs) x

/-- A subscript that leads through one level only. -/
def Subscript.Single (s : Subscript) : Prop := s.length?.any (1 < ·) = false

/-- Two lists that differ at most in one element. -/
structure Vec.SameBut (v : Vec Value) (i : Nat) (w : Vec Value) : Prop where
  list : v.kind = .list ∧ w.kind = .list
  length : w.length = v.length
  attributes : w.attributes = v.attributes
  elements : ∀ j, j ≠ i → w.element? j = v.element? j

/-- At a level of a path, two values have lists that differ at most in the element that the next
step leads to. -/
def AgreeAround (rs rs' : ω) (x y : Value) (steps : List Subscript) (k : Nat) : Prop :=
  ∃ (v w : Vec Value) (s : Subscript) (i : Nat), x.along rs (steps.take k) = .ok (.vector v) ∧
    y.along rs' (steps.take k) = .ok (.vector w) ∧ steps[k]? = some s ∧
    SingleIndex.ofSubscript v s = .ok (.index i) ∧ v.SameBut i w

theorem Value.eq_vector_of_isList {x : Value} (h : x.isList = true) :
    ∃ v : Vec Value, x = .vector v ∧ v.kind = .list := by
  cases x with
  | vector v =>
    obtain ⟨d, as, c⟩ := v
    cases d with
    | list xs => exact ⟨_, rfl, rfl⟩
    | _ => cases h
  | _ => cases h

theorem Data.eq_list_of_kind {d : Data Value} (h : d.kind = .list) : ∃ xs, d = .list xs := by
  cases d with
  | list xs => exact ⟨xs, rfl⟩
  | _ => cases h

theorem Value.isList_of_kind {v : Vec Value} (h : v.kind = .list) :
    (Value.vector v).isList = true := by
  obtain ⟨d, as, c⟩ := v
  cases d with
  | list xs => rfl
  | _ => cases h

namespace SingleIndex

theorem ofSubscript_congr {v w : Vec Value} (hlen : w.length = v.length)
    (hattributes : w.attributes = v.attributes) (s : Subscript) :
    ofSubscript w s = ofSubscript v s := by
  have hnames : w.names? = v.names? := by
    unfold Vec.names? Vec.attribute?
    rw [hattributes]
  have hposition : ofPosition w = ofPosition v := by
    funext p
    unfold ofPosition Selection.ofPosition
    rw [hlen, hnames]
  unfold ofSubscript
  rw [hposition]

def place? : SingleIndex → Option Nat
  | index i => some i
  | missing | notFound => none

theorem ofIndices_eq_ok {is : List (Option Nat)} {r : SingleIndex} (h : ofIndices is = .ok r) :
    is = [r.place?] := by
  unfold ofIndices at h
  split at h <;> cases h <;> rfl

theorem maskPlaces_extract (n : Nat) (bs : List (Option Bool)) :
    maskPlaces n .extract bs = (maskPlaces n .replace bs).map (·.filter (· < n)) := by
  unfold maskPlaces
  rw [List.map_filterMap]
  congr 1
  funext i
  rcases hb : (bs[i % bs.length]?).join with _ | _ | _
  · rfl
  · rfl
  · by_cases hi : i < n <;> simp [hi, Option.filter]

theorem eq_of_map_filter {keep : Nat → Bool} {is : List (Option Nat)} {ts : List Nat}
    (h : is.map (·.filter keep) = ts.map some) : is = ts.map some := by
  induction is generalizing ts with
  | nil => simpa using h
  | cons i is ih =>
    cases ts with
    | nil => cases h
    | cons t ts =>
      obtain ⟨hi, his⟩ := List.cons.inj h
      rw [(Option.filter_eq_some_iff.1 hi).1, ih his]
      rfl

theorem labelSlots_of_places {ns ls : List (Option String)} {ts : List Nat}
    (h : ls.map (labelPlace ns) = ts.map some) (n : Nat) (fresh : List (Option String)) :
    labelSlots n ns fresh ls = ts := by
  induction ls generalizing ts with
  | nil => simpa [labelSlots] using h.symm
  | cons l ls ih =>
    cases ts with
    | nil => cases h
    | cons t ts =>
      obtain ⟨hl, hls⟩ := List.cons.inj h
      rw [labelSlots, hl, Option.some_or, ← ih hls]

theorem indices_extract (n : Nat) (ns : Option (List (Option String))) (is : List (Option Nat)) :
    (Selection.resolve n ns .extract (.indices is)).indices = is.map (·.filter (· < n)) := by
  refine List.map_congr_left fun i _ => ?_
  cases i with
  | none => rfl
  | some i => by_cases hi : i < n <;> simp [Option.filter, hi]

theorem indices_replace_of_extract {n : Nat} {ns : Option (List (Option String))}
    {p : Position} {ts : List Nat} (h : (Selection.resolve n ns .extract p).indices = ts.map some) :
    (Selection.resolve n ns .replace p).indices = ts.map some := by
  cases p with
  | everything => exact h
  | nothing => exact h
  | excluding es => exact h
  | indices is =>
    have hwrite : (Selection.resolve n ns .replace (.indices is)).indices = is := by
      simp [Selection.resolve, Selection.places]
    exact hwrite.trans (eq_of_map_filter ((indices_extract n ns is).symm.trans h))
  | mask bs => exact eq_of_map_filter ((maskPlaces_extract n bs).symm.trans h)
  | named ls =>
    rw [Selection.indices_named_extract] at h
    rw [Selection.indices_named_replace, labelSlots_of_places h]

theorem labelPlace_getD (ns : Option (List (Option String))) (name : String) :
    labelPlace (ns.getD []) (some name) = ns.bind (findName · name) := by
  cases ns with
  | none => simp [labelPlace, findName]
  | some ns => rfl

theorem ofPosition_eq_ok {v : Vec Value} {p : Position} {r : SingleIndex}
    (h : ofPosition v p = .ok r) :
    p ≠ .everything ∧ (Selection.ofPosition v .extract p).indices = [r.place?] := by
  have hlabel : ∀ l, (Selection.ofPosition v .extract (.named [l])).indices =
      [labelPlace (v.names?.getD []) l] := fun l => Selection.indices_named_extract _ _ [l]
  -- one label and one number are looked up in their own way, anything else by the general rules
  unfold ofPosition at h
  split at h
  · cases h
  · cases h
    exact ⟨by simp, hlabel none⟩
  · rename_i name
    refine ⟨by simp, (hlabel _).trans ?_⟩
    rw [labelPlace_getD]
    split at h
    · rename_i i hi
      cases h
      rw [hi]
      rfl
    · rename_i hnone
      cases h
      rw [hnone]
      rfl
  · cases h
    exact ⟨by simp, rfl⟩
  · split at h
    · rename_i i hi
      cases h
      refine ⟨by simp, ?_⟩
      simp [Selection.ofPosition, Selection.resolve, Selection.places, hi, place?]
    · cases h
  · exact ⟨by assumption, ofIndices_eq_ok h⟩

theorem indices_of_index {v : Vec Value} {s : Subscript} {i : Nat}
    (h : ofSubscript v s = .ok (.index i)) :
    ∃ p, s.position = .ok p ∧ p ≠ .everything ∧
      (Selection.ofPosition v .extract p).indices = [some i] ∧
      (Selection.ofPosition v .replace p).indices = [some i] := by
  obtain ⟨p, hp, h⟩ := bind_eq_ok.1 h
  obtain ⟨hne, hread⟩ := ofPosition_eq_ok h
  have hplaces : (Selection.ofPosition v .extract p).indices = [i].map some := hread
  exact ⟨p, hp, hne, hread, indices_replace_of_extract hplaces⟩

end SingleIndex

namespace Selection

theorem within_of_present {v : Vec Value} {q : Position} {ts : List Nat} {purpose : Purpose}
    (h : (ofPosition v purpose q).indices = ts.map some) (hts : ∀ t ∈ ts, t < v.length) :
    (ofPosition v .replace q).indices = ts.map some ∧ (ofPosition v .replace q).targets = ts ∧
      (ofPosition v .replace q).length = v.length := by
  have hindices : (ofPosition v .replace q).indices = ts.map some := by
    cases purpose with
    | extract => exact SingleIndex.indices_replace_of_extract h
    | replace => exact h
  have htargets := targets_of_indices hindices
  refine ⟨hindices, htargets, ?_⟩
  change reach v.length (ofPosition v .replace q).targets = v.length
  rw [htargets]
  exact reach_of_lt hts

end Selection

namespace ReplacePlan

theorem strategyOf_element {s : Shape} {k : Kind} (hmode : s.mode = .element)
    (hcontainer : s.container.isVector) (hvalue : s.value = some k) (hk : k ≠ .null)
    (hone : s.subscripts.length = 1) (hpath : s.recursive = false) :
    strategyOf s = .ok (.element (targetKind s.container k)) := by
  have harray := Shape.isMatrix_of_one hone
  have hsome : s.subscripts ≠ [] := by
    intro hnil
    rw [hnil] at hone
    cases hone
  have hforeign : s.container ≠ .foreign := fun h => by simp [h, Kind.isVector] at hcontainer
  unfold strategyOf
  simp [hmode, hcontainer, hvalue, hpath, hk, harray, hone, hsome, hforeign]

theorem strategyOf_delete {s : Shape} (hcontainer : s.container = .list)
    (hvalue : s.value = some .null) (hpath : s.recursive = false) : strategyOf s = .ok .delete := by
  simp [strategyOf, hcontainer, hvalue, hpath, Kind.isVector]

end ReplacePlan

theorem ExtractPlan.strategyOf_element {s : Shape} (hmode : s.mode = .element)
    (hcontainer : s.container.isVector) (hone : s.subscripts.length = 1)
    (hpath : s.recursive = false) : strategyOf s = .ok .element := by
  have harray := Shape.isMatrix_of_one hone
  have hsome : s.subscripts ≠ [] := by
    intro hnil
    rw [hnil] at hone
    cases hone
  have hforeign : s.container ≠ .foreign := fun h => by simp [h, Kind.isVector] at hcontainer
  have hnull : s.container ≠ .null := fun h => by simp [h, Kind.isVector] at hcontainer
  unfold strategyOf
  simp [hmode, hcontainer, hone, hpath, harray, hsome, hforeign, hnull]

theorem Shape.isPath_eq_false {x : Value} {s : Subscript} {mode : Mode}
    (h : mode = .element → x.isList = true → s.Single) : isPath x [s] mode = false := by
  cases mode with
  | element =>
    cases hlist : x.isList with
    | false => simp [isPath, hlist]
    | true =>
      have hs : s.length?.any (1 < ·) = false := h rfl hlist
      simp [isPath, hs]
  | _ => rfl

theorem Shape.of_single (x : Value) {s : Subscript} (hs : s.Single) (value : Option Value) :
    (Shape.of x [s] value .element).recursive = false := isPath_eq_false fun _ _ => hs

theorem Shape.of_path {v path : Vec Value} (hv : v.kind = .list) (hlen : 2 ≤ path.length)
    (value : Option Value) :
    (Shape.of (.vector v) [.given (.vector path)] value .element).recursive = true := by
  change (Mode.element == Mode.element && (Value.vector v).isList &&
    decide (1 < path.length)) = true
  rw [Value.isList_of_kind hv]
  simp
  omega

theorem replaceStep_eq_null [Memory] {rs rs' : ω} {x value : Value} {s : Subscript}
    (h : (replaceStep rs x s value).result = .ok (.null, rs')) : x = .null ∧ value = .null := by
  unfold replaceStep at h
  rw [Noted.result_bind] at h
  obtain ⟨p, hp, h⟩ := bind_eq_ok.1 h
  obtain ⟨t, ht, rfl⟩ := map_eq_ok.1 hp
  have hsuits := ReplacePlan.suits_of_strategyOf ht
  cases t with
  | foreign =>
    cases x with
    | foreign object =>
      simp only [ReplacePlan.runWith, Noted.result_bind] at h
      obtain ⟨_, -, h⟩ := bind_eq_ok.1 h
      cases h
    | _ => cases h
  | path =>
    simp only [ReplacePlan.runWith] at h
    split at h <;> cases h
  | unchanged =>
    have hx : x.kind = .null := hsuits.1
    have hvalue : value.kind = .null := hsuits.2
    exact ⟨Classical.byContradiction fun hne => Value.kind_ne_null hne hx,
      Classical.byContradiction fun hne => Value.kind_ne_null hne hvalue⟩
  | _ =>
    simp only [ReplacePlan.runWith, Noted.result_bind] at h
    obtain ⟨_, -, h⟩ := bind_eq_ok.1 h
    cases h

theorem replaceStep_null [Memory] (rs : ω) (s : Subscript) :
    replaceStep rs .null s .null = .ok (.null, rs) := rfl

theorem replaceStep_vector [Memory] (rs : ω) (v : Vec Value) {s : Subscript} (hs : s.Single)
    {y : Value} (hy : y ≠ .null) : replaceStep rs (.vector v) s y = (do
      return (.vector (← (Value.vector v).assignElement s y
        (v.kind.promote y.asElements.kind)), rs)) := by
  have hplan := ReplacePlan.strategyOf_element (s := .of (.vector v) [s] (some y) .element) rfl
    (Data.kind_isVector v.data) rfl (Value.kind_ne_null hy) rfl (Shape.of_single _ hs _)
  rw [show (Shape.of (.vector v) [s] (some y) .element).container = v.kind from rfl,
    ReplacePlan.targetKind_eq _ hy] at hplan
  unfold replaceStep ReplacePlan.build
  rw [hplan]
  rfl

theorem replaceStep_list [Memory] (rs : ω) {v : Vec Value} (hv : v.kind = .list) {s : Subscript}
    (hs : s.Single) {y : Value} (hy : y ≠ .null) :
    replaceStep rs (.vector v) s y = (do
      return (.vector (← (Value.vector v).assignElement s y .list), rs)) := by
  have hkind : v.kind.promote y.asElements.kind = .list := by
    rw [hv]
    exact Kind.list_promote (Data.kind_isVector _)
  rw [replaceStep_vector rs v hs hy, hkind]

theorem replaceStep_list_null [Memory] (rs : ω) {v : Vec Value} (hv : v.kind = .list)
    {s : Subscript} (hs : s.Single) : replaceStep rs (.vector v) s .null = (do
      return (.vector (← v.delete [s] .element), rs)) := by
  have hplan := ReplacePlan.strategyOf_delete (s := .of (.vector v) [s] (some .null) .element) hv
    rfl (Shape.of_single _ hs _)
  unfold replaceStep ReplacePlan.build
  rw [hplan]
  rfl

theorem Selection.ofSingle_eq_ok {v : Vec Value} {s : Subscript} {p : Position} {i : Nat}
    (hp : s.position = .ok p) (hne : p ≠ .everything)
    (hi : (ofPosition v .replace p).indices = [some i]) :
    ofSingle v s = .ok (ofPosition v .replace p) := by
  unfold ofSingle
  rw [hp]
  change (if p = .everything then _ else _) = _
  rw [if_neg hne]
  simp only [hi]

theorem Selection.ofSingle_cases {v : Vec Value} {s : Subscript} {sel : Selection}
    (h : ofSingle v s = .ok sel) : ∃ p i, s.position = .ok p ∧ p ≠ .everything ∧
      sel = ofPosition v .replace p ∧ (ofPosition v .replace p).indices = [some i] := by
  obtain ⟨p, hp, h⟩ := bind_eq_ok.1 h
  split at h
  · cases h
  · rename_i hne
    simp only at h
    split at h
    · rename_i i hi
      cases h
      exact ⟨p, i, hp, hne, rfl, hi⟩
    · cases h
    · cases h
    · cases h

theorem Selection.ofSingle_of_index {v : Vec Value} {s : Subscript} {i : Nat}
    (hi : SingleIndex.ofSubscript v s = .ok (.index i)) (hlt : i < v.length) :
    ∃ sel, ofSingle v s = .ok sel ∧ sel.indices = [i].map some ∧ sel.length = v.length ∧
      ∀ t ∈ [i], t < v.length := by
  obtain ⟨p, hp, hne, -, hindices⟩ := SingleIndex.indices_of_index hi
  have hplaces : (ofPosition v .replace p).indices = [i].map some := hindices
  have hts : ∀ t ∈ [i], t < v.length := fun t ht => List.mem_singleton.1 ht ▸ hlt
  obtain ⟨-, -, hlen⟩ := within_of_present hplaces hts
  exact ⟨_, ofSingle_eq_ok hp hne hindices, hplaces, hlen, hts⟩

theorem Value.assignElement_eq [Memory] {v e : Vec Value} {s : Subscript} {y : Value}
    {k target : Kind} (he : (Value.vector v).singleElement y target = .ok (e, k)) :
    (Value.vector v).assignElement s y target = (do v.assign (← Selection.ofSingle v s) e k) := by
  unfold assignElement
  rw [he]
  rfl

theorem Data.assignRecycled_set (xs : List Value) {i : Nat} (hi : i < xs.length) (y : Value) :
    (list xs).assignRecycled [i] (list [y]) = .ok (list (xs.set i y)) := by
  simp [assignRecycled, assignElements, hi, overwrite, Except.map]

theorem Value.assignElement_set [Memory] {v : Vec Value} {s : Subscript} {i : Nat} {xs : List Value}
    (hxs : v.data = .list xs) (hi : SingleIndex.ofSubscript v s = .ok (.index i))
    (hlt : i < xs.length) (y : Value) :
    (Value.vector v).assignElement s y .list =
      .ok ⟨.list (xs.set i y), v.attributes, v.complete⟩ := by
  have hkind : v.kind = .list := congrArg Data.kind hxs
  have hcount : v.length = xs.length := congrArg Data.length hxs
  obtain ⟨sel, hsel, hindices, hlen, -⟩ := Selection.ofSingle_of_index hi (hcount ▸ hlt)
  have hwritten : v.data.assignRecycled [i] (Vec.ofList [y]).data = .ok (.list (xs.set i y)) := by
    rw [hxs]
    exact Data.assignRecycled_set xs hlt y
  have hassign := Vec.assign_exact (e := .ofList [y]) hindices hlen hkind.symm rfl hwritten
  have hpresent : (Vec.ofList [y]).data.hasNA = false := rfl
  rw [hkind, hpresent, Bool.not_false, Bool.and_true] at hassign
  rw [assignElement_eq (e := .ofList [y]) rfl, hsel, Noted.lift_ok_bind, hassign]

theorem replaceStep_list_eq_ok [Memory] {rs rs' : ω} {v : Vec Value} (hv : v.kind = .list)
    {s : Subscript} (hs : s.Single) {i : Nat} (hi : SingleIndex.ofSubscript v s = .ok (.index i))
    (hlt : i < v.length) {y r : Value} (hy : y ≠ .null)
    (h : (replaceStep rs (.vector v) s y).result = .ok (r, rs')) :
    ∃ w : Vec Value, r = .vector w ∧ rs' = rs ∧ v.SameBut i w ∧ w.element? i = some y := by
  obtain ⟨xs, hxs⟩ := Data.eq_list_of_kind hv
  have hlen : v.length = xs.length := congrArg Data.length hxs
  rw [replaceStep_list rs hv hs hy, Value.assignElement_set hxs hi (hlen ▸ hlt)] at h
  cases h
  refine ⟨_, rfl, rfl, ⟨⟨hv, rfl⟩, hlen ▸ List.length_set, rfl, ?_⟩, ?_⟩
  · intro j hj
    simp only [Vec.element?, hxs, List.getElem?_set_ne hj.symm]
  · simp only [Vec.element?, List.getElem?_set_self (hlen ▸ hlt)]

theorem replaceStep_list_null_eq_ok [Memory] {rs rs' : ω} {v : Vec Value} (hv : v.kind = .list)
    {s : Subscript} (hs : s.Single) {i : Nat} (hi : SingleIndex.ofSubscript v s = .ok (.index i))
    (hlt : i < v.length) {r : Value}
    (h : (replaceStep rs (.vector v) s .null).result = .ok (r, rs')) :
    ∃ w : Vec Value, r = .vector w ∧ w.length < v.length := by
  rw [replaceStep_list_null rs hv hs, Noted.result_bind] at h
  obtain ⟨w, hw, h⟩ := bind_eq_ok.1 h
  cases h
  refine ⟨w, rfl, ?_⟩
  obtain ⟨p, hp, -, hindices, -⟩ := SingleIndex.indices_of_index hi
  obtain ⟨p', hp', hw⟩ := Vec.delete_eq_ok (show v.delete [s] .element = .ok w from hw)
  have hsame : p' = p := Except.ok.inj ((hp' s rfl).symm.trans hp)
  subst p'
  have hdoomed : ascending (Selection.ofPosition v .extract p).targets = [i] := by
    unfold Selection.targets
    rw [hindices]
    rfl
  rw [hdoomed] at hw
  exact Vec.length_without_lt hlt hw

theorem extractStep_vector (rs : ω) {v : Vec Value} {s : Subscript} (hs : s.Single) {i : Nat}
    {c : Value} (hi : SingleIndex.ofSubscript v s = .ok (.index i))
    (hc : v.element? i = some c) : extractStep rs (.vector v) s = .ok c := by
  have hstrategy : ExtractPlan.strategyOf (.of (.vector v) [s] none .element) = .ok .element :=
    ExtractPlan.strategyOf_element rfl (Data.kind_isVector v.data) rfl (Shape.of_single _ hs _)
  have hsubscript : v.subscript s = .ok c := by
    unfold Vec.subscript
    rw [hi]
    simp only [bind, Except.bind, hc]
    rfl
  unfold extractStep ExtractPlan.build
  rw [hstrategy]
  exact hsubscript

theorem childAt_eq_ok {x c : Value} {s : Subscript} {level : Nat}
    (h : childAt x s level = .ok c) : ∃ (v : Vec Value) (i : Nat), x = .vector v ∧
      SingleIndex.ofSubscript v s = .ok (.index i) ∧ v.element? i = some c := by
  cases x with
  | vector v =>
    simp only [childAt] at h
    split at h
    · rename_i i hi
      split at h
      · rename_i y hy
        cases h
        exact ⟨v, i, rfl, hi, hy⟩
      · cases h
    · cases h
    · cases h
    · cases h
  | _ => cases h

theorem Vec.lt_of_element? {v : Vec Value} {i : Nat} {c : Value} (h : v.element? i = some c) :
    i < v.length := by
  obtain ⟨d, as, complete⟩ := v
  cases d with
  | list xs => exact (List.getElem?_eq_some_iff.1 h).1
  | _ =>
    simp only [element?] at h
    split at h
    · assumption
    · cases h

theorem checkLevel_eq_ok {x : Value} {level : Nat} (h : x.checkLevel level = .ok ()) :
    x.isList = true := by
  unfold Value.checkLevel at h
  split at h
  · assumption
  · split at h <;> cases h

theorem Value.along_cons {rs : ω} {x c : Value} {s : Subscript}
    (h : extractStep rs x s = .ok c) (ss : List Subscript) :
    x.along rs (s :: ss) = c.along rs ss := by
  rw [along, List.foldlM_cons, h]
  rfl

theorem agreeAround_cons {rs rs' : ω} {v w : Vec Value} {s : Subscript}
    {rest : List Subscript} {c d : Value} {k : Nat} (hc : extractStep rs (.vector v) s = .ok c)
    (hd : extractStep rs' (.vector w) s = .ok d) :
    AgreeAround rs rs' (.vector v) (.vector w) (s :: rest) (k + 1) ↔
      AgreeAround rs rs' c d rest k := by
  simp only [AgreeAround, List.take_succ_cons, Value.along_cons hc, Value.along_cons hd,
    List.getElem?_cons_succ]

theorem agreeAround_append {rs rs' : ω} {x y : Value} {init rest : List Subscript} {k : Nat}
    (hk : k < init.length) :
    AgreeAround rs rs' x y (init ++ rest) k ↔ AgreeAround rs rs' x y init k := by
  simp only [AgreeAround, List.take_append_of_le_length (Nat.le_of_lt hk),
    List.getElem?_append_left hk]

theorem agreeAround_zero {rs rs' : ω} {v w : Vec Value} {s : Subscript}
    {rest : List Subscript} {i : Nat} (hi : SingleIndex.ofSubscript v s = .ok (.index i)) :
    AgreeAround rs rs' (.vector v) (.vector w) (s :: rest) 0 ↔ v.SameBut i w := by
  constructor
  · rintro ⟨v', w', s', i', hv, hw, hs, hi', hsame⟩
    cases hv
    cases hw
    cases hs
    rw [hi] at hi'
    cases hi'
    exact hsame
  · exact fun hsame => ⟨v, w, s, i, rfl, rfl, rfl, hi, hsame⟩

theorem replaceSteps_cons_eq_ok [Memory] {rs rs' : ω} {level : Nat} {x value y : Value}
    {last s : Subscript} {rest : List Subscript}
    (h : (replaceSteps rs level x last value (s :: rest)).result = .ok (y, rs')) :
    ∃ (v : Vec Value) (i : Nat) (c d : Value) (rs₁ : ω), x = .vector v ∧ v.kind = .list ∧
      SingleIndex.ofSubscript v s = .ok (.index i) ∧ v.element? i = some c ∧
      (replaceSteps rs (level + 1) c last value rest).result = .ok (d, rs₁) ∧
      (replaceStep rs₁ x s d).result = .ok (y, rs') := by
  rw [replaceSteps] at h
  simp only [Noted.result_bind, Noted.result_lift] at h
  obtain ⟨_, hlevel, h⟩ := bind_eq_ok.1 h
  obtain ⟨c, hc, h⟩ := bind_eq_ok.1 h
  obtain ⟨⟨d, rs₁⟩, hd, h⟩ := bind_eq_ok.1 h
  obtain ⟨v, hx, hv⟩ := Value.eq_vector_of_isList (checkLevel_eq_ok hlevel)
  obtain ⟨v', i, hx', hi, hi'⟩ := childAt_eq_ok hc
  cases hx.symm.trans hx'
  exact ⟨v, i, c, d, rs₁, hx, hv, hi, hi', hd, h⟩

/-- The list right around the innermost container: a `NULL` that comes out of the container is
stored by taking the element away, and that is a shorter list. -/
theorem agreeAround_last [Memory] {rs rs₁ rs₂ rs' : ω} {v : Vec Value} {s last : Subscript}
    {i : Nat} {c d value y : Value} (hv : v.kind = .list) (hs : s.Single)
    (hi : SingleIndex.ofSubscript v s = .ok (.index i)) (hlt : i < v.length)
    (hd : (replaceStep rs c last value).result = .ok (d, rs₁))
    (hy : (replaceStep rs₁ (.vector v) s d).result = .ok (y, rs₂)) :
    y ≠ .null ∧ (AgreeAround rs rs' (.vector v) y [s] 0 ↔ ¬(value = .null ∧ c = .null)) := by
  by_cases hnull : d = .null
  · subst d
    obtain ⟨rfl, rfl⟩ := replaceStep_eq_null hd
    obtain ⟨w, rfl, hshort⟩ := replaceStep_list_null_eq_ok hv hs hi hlt hy
    refine ⟨by simp, ?_⟩
    rw [agreeAround_zero hi]
    refine ⟨fun hsame => ?_, fun hnot => absurd ⟨rfl, rfl⟩ hnot⟩
    have := hsame.length
    omega
  · obtain ⟨w, rfl, -, hsame, -⟩ := replaceStep_list_eq_ok hv hs hi hlt hnull hy
    refine ⟨by simp, ?_⟩
    rw [agreeAround_zero hi]
    refine ⟨fun _ => ?_, fun _ => hsame⟩
    rintro ⟨rfl, rfl⟩
    rw [replaceStep_null] at hd
    cases hd
    exact hnull rfl

/-- The lists around the innermost container keep everything but the elements on the path, and
the one right around it loses its element exactly when `NULL` is written to `NULL`. -/
theorem replaceSteps_frame [Memory] {rs rs' : ω} {level : Nat} {x value y : Value}
    {last : Subscript} {steps : List Subscript} (hsteps : ∀ s ∈ steps, s.Single) (hne : steps ≠ [])
    (h : (replaceSteps rs level x last value steps).result = .ok (y, rs')) :
    ∃ z, y ≠ .null ∧ x.along rs steps = .ok z ∧ ∀ k, k < steps.length →
      (AgreeAround rs rs' x y steps k ↔
        ¬(k + 1 = steps.length ∧ value = .null ∧ z = .null)) := by
  -- from the innermost container outward: each list gets the changed one from behind its step
  induction steps generalizing level x y rs' with
  | nil => exact absurd rfl hne
  | cons s rest ih =>
    obtain ⟨v, i, c, d, rs₁, rfl, hv, hi, hc, hd, hy⟩ := replaceSteps_cons_eq_ok h
    have hs : s.Single := hsteps s List.mem_cons_self
    have hlt : i < v.length := Vec.lt_of_element? hc
    have hread : extractStep rs (.vector v) s = .ok c := extractStep_vector rs hs hi hc
    have halong := Value.along_cons hread
    cases rest with
    | nil =>
      obtain ⟨hnull, hagree⟩ := agreeAround_last hv hs hi hlt hd hy
      refine ⟨c, hnull, halong [], fun k hk => ?_⟩
      obtain rfl : k = 0 := by simpa using hk
      exact hagree.trans (by simp)
    | cons t rest =>
      obtain ⟨z, hdnull, hz, hframe⟩ :=
        ih (fun s hs => hsteps s (List.mem_cons_of_mem _ hs)) (by simp) hd
      obtain ⟨w, rfl, rfl, hsame, hw⟩ := replaceStep_list_eq_ok hv hs hi hlt hdnull hy
      have hback : extractStep rs' (.vector w) s = .ok d :=
        extractStep_vector rs' hs
          ((SingleIndex.ofSubscript_congr hsame.length hsame.attributes s).trans hi) hw
      refine ⟨z, by simp, (halong _).trans hz, fun k hk => ?_⟩
      cases k with
      | zero =>
        rw [agreeAround_zero hi]
        exact ⟨fun _ hboth => by simp at hboth, fun _ => hsame⟩
      | succ k =>
        rw [agreeAround_cons hread hback, hframe k (Nat.lt_of_succ_lt_succ hk)]
        simp

theorem elements_single {path : Vec Value} (h : path.kind.isAtomic) :
    path.elements.length = path.length ∧
      ∀ s ∈ path.elements.map Subscript.given, s.Single := by
  rw [Vec.elements_of_atomic h]
  refine ⟨by simp, fun s hs => ?_⟩
  obtain ⟨x, hx, rfl⟩ := List.mem_map.1 hs
  obtain ⟨i, -, rfl⟩ := List.mem_map.1 hx
  have hone : (Value.vector (Vec.ofData (path.data.select [some i]))).length = 1 :=
    Data.length_select _ _
  simp [Subscript.Single, Subscript.length?, hone]

theorem replace_path [Memory] (rs : ω) {v path : Vec Value} (hv : v.kind = .list)
    (hlen : 2 ≤ path.length) (value : Value) :
    replace rs (.vector v) [.given (.vector path)] value .element =
      replacePath rs (.vector v) (.vector path) value := by
  have hpath := Shape.of_path hv hlen (some value)
  have hstrategy : ReplacePlan.strategyOf
      (.of (.vector v) [.given (.vector path)] (some value) .element) = .ok .path := by
    have hkind : (Shape.of (.vector v) [.given (.vector path)] (some value) .element).container =
        .list := hv
    unfold ReplacePlan.strategyOf
    simp [hkind, hpath, Kind.isVector]
  unfold replace ReplacePlan.build
  rw [hstrategy]
  rfl

theorem replacePath_eq [Memory] {rs : ω} {x path value : Value} {init : List Subscript}
    {last : Subscript} (h : path.steps = .ok (init ++ [last])) :
    replacePath rs x path value = replaceSteps rs 1 x last value init := by
  unfold replacePath
  rw [h, Noted.lift_ok_bind]
  simp only [List.getLast?_concat, List.dropLast_concat]

/-- Assignment along a path of two or more steps keeps every list on the way but for the element
that the path goes through, with one exception: if `NULL` is written to an innermost container
that is `NULL`, the list around it loses that element. -/
theorem path_assignment_frame [Memory] (rs rs' : ω) (v path : Vec Value) (value y : Value)
    (hv : v.kind = .list) (hatomic : path.kind.isAtomic) (hlen : 2 ≤ path.length)
    (h : (replace rs (.vector v) [.given (.vector path)] value .element).result =
      .ok (y, rs')) :
    ∃ z, (Value.vector v).along rs (path.elements.map Subscript.given).dropLast = .ok z ∧
      ∀ k, k + 2 ≤ path.length →
        (AgreeAround rs rs' (.vector v) y (path.elements.map .given) k ↔
          ¬(k + 2 = path.length ∧ value = .null ∧ z = .null)) := by
  obtain ⟨hcount, hsingle⟩ := elements_single hatomic
  rw [replace_path rs hv hlen] at h
  have hsteps : (Value.vector path).steps = .ok (path.elements.map .given) := if_pos hatomic
  have hstepsLen : (path.elements.map Subscript.given).length = path.length := by
    rw [List.length_map, hcount]
  generalize path.elements.map Subscript.given = ss at hsteps hsingle hstepsLen
  rcases List.eq_nil_or_concat ss with rfl | ⟨init, last, rfl⟩
  · rw [← hstepsLen] at hlen
    cases hlen
  rw [List.concat_eq_append] at hsteps hsingle hstepsLen ⊢
  rw [List.length_append, List.length_singleton] at hstepsLen
  rw [replacePath_eq hsteps] at h
  have hinit : init ≠ [] := by
    rintro rfl
    simp at hstepsLen
    omega
  obtain ⟨z, -, hz, hframe⟩ := replaceSteps_frame
    (fun s hs => hsingle s (List.mem_append_left _ hs)) hinit h
  refine ⟨z, by rw [List.dropLast_concat, hz], fun k hk => ?_⟩
  have hk' : k < init.length := by omega
  have hlast : k + 1 = init.length ↔ k + 2 = path.length := by omega
  rw [agreeAround_append hk', hframe k hk', hlast]

section

attribute [local instance] Memory.unbounded

theorem path_assignment_frame_nested :
    ∃ (y : Value) (rs : Records), (replace ([] : Records) (.vector (.ofList
        [.vector (.ofList [.logical true, .null]), .logical false]))
      [.given (.vector (.ofData (.integer [1, 2])))] .null .element).result = .ok (y, rs) ∧
    AgreeAround ([] : Records) rs (.vector (.ofList
        [.vector (.ofList [.logical true, .null]), .logical false])) y
      ((Vec.ofData (.integer [1, 2])).elements.map .given) 0 := by
  refine ⟨.vector (.ofList [.vector (.ofList [.logical true]), .logical false]), [], rfl, ?_⟩
  obtain ⟨z, hz, hframe⟩ := path_assignment_frame ([] : Records) [] (.ofList
      [.vector (.ofList [.logical true, .null]), .logical false]) (.ofData (.integer [1, 2])) .null
    (.vector (.ofList [.vector (.ofList [.logical true]), .logical false])) rfl rfl (by decide) rfl
  refine (hframe 0 (by decide)).2 ?_
  rintro ⟨-, -, rfl⟩
  cases hz

/-- `NULL` written into a `NULL` element takes that element out of the list around it, and the
elements behind move up. -/
theorem path_assignment_null_into_null :
    (replace ([] : Records) (.vector (.ofList [.null, .logical true]))
      [.given (.vector (.ofData (.integer [1, 1])))] .null .element).result =
        .ok (.vector (.ofList [.logical true]), []) ∧
    ¬AgreeAround ([] : Records) [] (.vector (.ofList [.null, .logical true]))
      (.vector (.ofList [.logical true]))
      ((Vec.ofData (.integer [1, 1])).elements.map .given) 0 := by
  refine ⟨rfl, fun hagree => ?_⟩
  have hsame : (Vec.ofList [.null, .logical true]).SameBut 0 (.ofList [.logical true]) :=
    (agreeAround_zero rfl).1 hagree
  exact absurd hsame.length (by decide)

end

end LazyVectors
