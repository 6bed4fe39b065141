import LazyVectors.Proofs.LinearPlaces
import LazyVectors.Proofs.PathFrame
import LazyVectors.Proofs.Shaped
set_option autoImplicit false

namespace LazyVectors

variable {ω : Type} [Foreign ω]

theorem getElem?_of_labelPlace {ns : List (Option String)} {l : Option String} {i : Nat}
    (h : labelPlace ns l = some i) : ns[i]? = some l := by
  cases l with
  | none => cases h
  | some name =>
    simp only [labelPlace, Option.bind_some, findName] at h
    split at h
    · cases h
    · obtain ⟨hi, hsame, -⟩ := List.findIdx?_eq_some_iff_getElem.1 h
      rw [List.getElem?_eq_getElem hi, eq_of_beq hsame]

theorem getElem?_freshLabels {n k t : Nat} {ns fresh ls : List (Option String)} {l : Option String}
    (hns : ns.length ≤ n) (hk : (labelSlots n ns fresh ls)[k]? = some t) (hl : ls[k]? = some l)
    (ht : n ≤ t) : (freshLabels ns fresh ls)[t - n]? = some l := by
  -- labels that were given a place keep it, whatever comes later
  have hkept : ∀ {known ms : List (Option String)} {j : Nat}, known[j]? = some l →
      (freshLabels ns known ms)[n + j - n]? = some l := by
    intro known ms j hj
    obtain ⟨more, hmore⟩ := prefix_freshLabels ns known ms
    obtain ⟨hlt, -⟩ := List.getElem?_eq_some_iff.1 hj
    rw [Nat.add_sub_cancel_left, ← hmore, List.getElem?_append_left hlt, hj]
  induction ls generalizing fresh k with
  | nil => cases hl
  | cons m ls ih =>
    cases hold : labelPlace ns m with
    | some i =>
      simp only [labelSlots, freshLabels, hold, Option.some_or] at hk ⊢
      cases k with
      | zero =>
        cases hk
        have := labelPlace_lt hold
        omega
      | succ k => exact ih hk hl
    | none =>
      cases hnew : labelPlace fresh m with
      | some j =>
        simp only [labelSlots, freshLabels, hold, hnew, Option.none_or, Option.map_some] at hk ⊢
        cases k with
        | zero =>
          cases hk
          cases hl
          exact hkept (getElem?_of_labelPlace hnew)
        | succ k => exact ih hk hl
      | none =>
        simp only [labelSlots, freshLabels, hold, hnew, Option.none_or, Option.map_none] at hk ⊢
        cases k with
        | zero =>
          cases hk
          cases hl
          exact hkept (by simp)
        | succ k => exact ih hk hl

theorem mem_labelSlots {n t : Nat} {ns fresh ls : List (Option String)}
    (hge : n + fresh.length ≤ t) (hlt : t < n + (freshLabels ns fresh ls).length) :
    t ∈ labelSlots n ns fresh ls := by
  induction ls generalizing fresh with
  | nil =>
    rw [freshLabels] at hlt
    omega
  | cons m ls ih =>
    cases hold : labelPlace ns m with
    | some i =>
      simp only [labelSlots, freshLabels, hold, Option.some_or] at hlt ⊢
      exact List.mem_cons_of_mem _ (ih hge hlt)
    | none =>
      cases hnew : labelPlace fresh m with
      | some j =>
        simp only [labelSlots, freshLabels, hold, hnew, Option.none_or, Option.map_some] at hlt ⊢
        exact List.mem_cons_of_mem _ (ih hge hlt)
      | none =>
        simp only [labelSlots, freshLabels, hold, hnew, Option.none_or, Option.map_none] at hlt ⊢
        by_cases hhead : t = n + fresh.length
        · exact hhead ▸ List.mem_cons_self
        · refine List.mem_cons_of_mem _ (ih ?_ hlt)
          rw [List.length_append, List.length_singleton]
          omega

theorem freshLabels_eq_nil_iff {n : Nat} {ns ls : List (Option String)} (hns : ns.length ≤ n) :
    freshLabels ns [] ls = [] ↔ ∀ t ∈ labelSlots n ns [] ls, t < n := by
  constructor
  · intro hnil t ht
    refine Nat.lt_of_not_le fun hge => ?_
    obtain ⟨k, hk⟩ := List.mem_iff_getElem?.1 ht
    obtain ⟨l, hl⟩ : ∃ l, ls[k]? = some l := by
      have hlt := (List.getElem?_eq_some_iff.1 hk).1
      rw [length_labelSlots] at hlt
      exact ⟨_, List.getElem?_eq_getElem hlt⟩
    have hfresh := getElem?_freshLabels hns hk hl hge
    rw [hnil] at hfresh
    cases hfresh
  · intro hold
    refine Classical.byContradiction fun hne => ?_
    have hpos : 0 < (freshLabels ns [] ls).length := List.length_pos_iff.2 hne
    have hmem : n ∈ labelSlots n ns [] ls := mem_labelSlots (Nat.le_refl n) (by omega)
    exact Nat.lt_irrefl n (hold n hmem)

namespace Named

variable {α : Type} {name : String}

theorem filter_put (xs : Named α) (a : α) (keep : String → Bool) (hname : keep name = false) :
    (put xs name a).filter (fun x => keep x.1) = xs.filter (fun x => keep x.1) := by
  induction xs with
  | nil => simp [put, hname]
  | cons x xs ih =>
    obtain ⟨n, b⟩ := x
    unfold put
    split
    · rename_i hn
      simp [hn, hname]
    · rw [List.filter_cons, List.filter_cons, ih]

theorem filter_erase (xs : Named α) (keep : String → Bool) (hname : keep name = false) :
    (erase xs name).filter (fun x => keep x.1) = xs.filter (fun x => keep x.1) := by
  induction xs with
  | nil => rfl
  | cons x xs ih =>
    obtain ⟨n, a⟩ := x
    unfold erase at ih ⊢
    by_cases hn : n = name
    · simp [hn, hname]
    · rw [List.eraseP_cons_of_neg (by simpa using hn), List.filter_cons, List.filter_cons, ih]

end Named

namespace Vec

def isOther (name : String) : Bool := name ∉ ["names", "dim", "dimnames"]

def otherAttributes (v : Vec Value) : Attributes :=
  (v.attributes.getD []).filter fun a => isOther a.1

variable {u v w : Vec Value}

theorem otherAttributes_congr (h : w.attributes = v.attributes) :
    w.otherAttributes = v.otherAttributes := by
  unfold otherAttributes
  rw [h]

theorem otherAttributes_putAttribute (v : Vec Value) {name : String} {x : Value}
    (hx : x.isNull = false) (hname : isOther name = false) :
    (v.putAttribute name x).otherAttributes = v.otherAttributes := by
  have hput : (v.putAttribute name x).attributes =
      some (Named.put (v.attributes.getD []) name x) := by
    simp [putAttribute, Attributes.put, hx]
  unfold otherAttributes
  rw [hput]
  exact Named.filter_put _ _ isOther hname

theorem otherAttributes_removeAttribute (v : Vec Value) {name : String}
    (hname : isOther name = false) :
    (v.removeAttribute name).otherAttributes = v.otherAttributes := by
  have hremoved : (v.removeAttribute name).attributes.getD [] =
      Named.erase (v.attributes.getD []) name := by
    unfold removeAttribute
    cases has : v.attributes with
    | none =>
      simp only [has]
      rfl
    | some as =>
      simp only [Option.getD_some]
      split
      · rename_i hempty
        exact (List.isEmpty_iff.1 hempty).symm
      · rfl
  unfold otherAttributes
  rw [hremoved]
  exact Named.filter_erase _ isOther hname

theorem otherAttributes_clearDim (v : Vec Value) :
    v.clearDim.otherAttributes = v.otherAttributes := by
  rw [clearDim, otherAttributes_removeAttribute _ (by decide),
    otherAttributes_removeAttribute _ (by decide)]

/-- The places of labels in a vector, the next ones behind the end for those that it has not. -/
def slots (v : Vec Value) (asked : List (Option String)) : List Nat :=
  labelSlots v.length (v.names?.getD []) [] asked

/-- The labels of a vector that grew to hold `n` elements: the old ones, or empty ones if it had
none, the new ones at the places they were given, and empty ones in the gaps. -/
structure Relabelled (v : Vec Value) (asked : List (Option String)) (n : Nat)
    (ls : List (Option String)) : Prop where
  length : ls.length = n
  old : ∀ i, i < v.length → ls[i]? = v.paddedNames[i]?
  new : ∀ (k t : Nat) (l : Option String), (v.slots asked)[k]? = some t → asked[k]? = some l →
    v.length ≤ t → ls[t]? = some l
  gaps : ∀ i, v.length ≤ i → i < n → i ∉ v.slots asked → ls[i]? = some (some "")

/-- What becomes of the attributes of a vector that grows when it is asked for labels. -/
structure GrownTo (v : Vec Value) (asked : List (Option String)) (w : Vec Value) : Prop where
  extents : w.attribute? "dim" = none ∧ w.attribute? "dimnames" = none
  unlabelled : w.attribute? "names" = none ↔
    v.attribute? "names" = none ∧ ∀ t ∈ v.slots asked, t < v.length
  labels : ∀ x, w.attribute? "names" = some x →
    ∃ ls, x = .vector (.ofStrings ls) ∧ v.Relabelled asked w.length ls
  others : w.otherAttributes = v.otherAttributes

theorem Relabelled.of_fresh (hv : v.NamesFit) {asked : List (Option String)} {n : Nat}
    (hn : v.length + (freshLabels (v.names?.getD []) [] asked).length ≤ n) :
    v.Relabelled asked n (v.paddedNames ++ freshLabels (v.names?.getD []) [] asked ++
      List.replicate (n - (v.length + (freshLabels (v.names?.getD []) [] asked).length))
        (some "")) := by
  have hpadded := hv.length_paddedNames
  have hfresh : ∀ i l, (freshLabels (v.names?.getD []) [] asked)[i]? = some l →
      i < (freshLabels (v.names?.getD []) [] asked).length := fun i l h =>
    (List.getElem?_eq_some_iff.1 h).1
  refine ⟨?_, fun i hi => ?_, fun k t l hk hl ht => ?_, fun i hge hlt hi => ?_⟩
  · simp only [List.length_append, List.length_replicate, hpadded]
    omega
  · rw [List.append_assoc, List.getElem?_append_left (by omega)]
  · have hlabel := getElem?_freshLabels hv.length_le hk hl ht
    have hlt := hfresh _ l hlabel
    rw [List.getElem?_append_left (by rw [List.length_append]; omega),
      List.getElem?_append_right (by omega), hpadded, hlabel]
  · have hbehind : v.length + (freshLabels (v.names?.getD []) [] asked).length ≤ i :=
      Nat.le_of_not_lt fun hnew => hi (mem_labelSlots hge hnew)
    rw [List.getElem?_append_right (by rw [List.length_append]; omega), List.getElem?_replicate,
      if_pos (by rw [List.length_append]; omega)]

end Vec

def Position.labels : Position → List (Option String)
  | .named ls => ls
  | _ => []

theorem Position.fresh_eq (ns : List (Option String)) (q : Position) :
    q.fresh ns = freshLabels ns [] q.labels := by
  cases q <;> rfl

namespace Vec

theorem names?_eq_none {v : Vec Value} (h : v.attribute? "names" = none) : v.names? = none := by
  unfold names?
  rw [h]

theorem GrownTo.of_clearDim {v w : Vec Value} {asked : List (Option String)} (hv : v.Shaped)
    (hnone : v.names? = none) (hold : ∀ t ∈ v.slots asked, t < v.length)
    (hattributes : w.attributes = v.clearDim.attributes) : v.GrownTo asked w := by
  obtain ⟨hdim, hdimnames, hsame⟩ := attribute?_clearDim hv.unique
  have hattribute := attribute?_congr hattributes
  have hvnone := hv.attribute?_names_of_none hnone
  have hwnone : w.attribute? "names" = none := (hattribute _).trans (hsame.trans hvnone)
  refine ⟨⟨(hattribute _).trans hdim, (hattribute _).trans hdimnames⟩,
    iff_of_true hwnone ⟨hvnone, hold⟩, fun x hx => ?_,
    (otherAttributes_congr hattributes).trans (otherAttributes_clearDim v)⟩
  rw [hwnone] at hx
  cases hx

theorem GrownTo.of_relabelled {v w : Vec Value} {asked ls : List (Option String)} (hv : v.Shaped)
    (hsome : ¬(v.names? = none ∧ ∀ t ∈ v.slots asked, t < v.length))
    (hls : v.Relabelled asked w.length ls) (hattributes : w.attributes =
      (v.clearDim.putAttribute "names" (.vector (.ofStrings ls))).attributes) :
    v.GrownTo asked w := by
  obtain ⟨hdim, hdimnames, -⟩ := attribute?_clearDim hv.unique
  have hattribute := fun name => (attribute?_congr hattributes name).trans
    (attribute?_putAttribute _ _ name _ rfl)
  have hlabelled : w.attribute? "names" = some (.vector (.ofStrings ls)) := by
    rw [hattribute, if_pos rfl]
  refine ⟨⟨?_, ?_⟩, iff_of_false ?_ ?_, fun x hx => ?_, ?_⟩
  · rw [hattribute, if_neg (by decide), hdim]
  · rw [hattribute, if_neg (by decide), hdimnames]
  · rw [hlabelled]
    exact Option.some_ne_none _
  · exact fun hboth => hsome ⟨names?_eq_none hboth.1, hboth.2⟩
  · rw [hlabelled] at hx
    exact ⟨ls, (Option.some.inj hx).symm, hls⟩
  · rw [otherAttributes_congr hattributes, otherAttributes_putAttribute _ rfl (by decide),
      otherAttributes_clearDim]

theorem grownTo_of_store [Memory] {v w : Vec Value} {q : Position} {values : Data Value}
    (hv : v.Shaped)
    (h : v.store (Selection.ofPosition v .replace q) values = .ok w) (hlt : v.length < w.length) :
    v.GrownTo q.labels w := by
  obtain ⟨room, hroom, -, hattributes⟩ := store_eq_ok h
  have hlen := length_of_store h
  have hgrows : (Selection.ofPosition v .replace q).growsPast v.length = true :=
    decide_eq_true (by omega)
  rw [if_pos hgrows] at hroom
  have hfits : v.length + (freshLabels (v.names?.getD []) [] q.labels).length ≤ w.length := by
    have hle := add_length_fresh_le v.length v.names? q
    change _ ≤ (Selection.ofPosition v .replace q).length at hle
    rw [Position.fresh_eq] at hle
    omega
  have hnames := names?_of_store hv.namesFit h
  have happended := appended_eq_nil v q
  rw [Position.fresh_eq] at hnames happended
  have hold : freshLabels (v.names?.getD []) [] q.labels = [] ↔
      ∀ t ∈ v.slots q.labels, t < v.length := freshLabels_eq_nil_iff hv.namesFit.length_le
  obtain ⟨-, ⟨hnone, hnew, hcleared⟩ | ⟨hsome, ns, -, -, hput⟩⟩ := grow_eq_ok hroom
  · exact .of_clearDim hv hnone (hold.1 (happended.1 hnew)) (hattributes.trans hcleared)
  · have hput := hattributes.trans hput
    rw [happended] at hsome
    rw [if_neg hsome, names?_congr hput, names?_putNames, Option.some.injEq] at hnames
    rw [hold] at hsome
    rw [hnames] at hput
    exact .of_relabelled hv hsome (.of_fresh hv.namesFit hfits) hput

/-- What a write does to the attributes of a vector that it asks for labels. -/
def Rewritten (v : Vec Value) (asked : List (Option String)) (w : Vec Value) : Prop :=
  (w.length ≤ v.length → w.attributes = v.attributes) ∧
    (v.length < w.length → v.GrownTo asked w)

theorem Rewritten.of_cast {v u w : Vec Value} {k : Kind} {asked : List (Option String)}
    (hcast : (v.cast k).result = .ok u) (h : u.Rewritten asked w) : v.Rewritten asked w := by
  obtain ⟨hdata, hattributes⟩ := cast_eq_ok hcast
  have hlen : u.length = v.length := (Data.kind_length_of_cast hdata).2
  have hnames := names?_congr hattributes
  have hpadded : u.paddedNames = v.paddedNames := by
    unfold paddedNames
    rw [hnames, hlen]
  have hslots : u.slots asked = v.slots asked := by
    unfold slots
    rw [hnames, hlen]
  obtain ⟨hkept, hgrown⟩ := h
  rw [hlen] at hkept hgrown
  refine ⟨fun hle => (hkept hle).trans hattributes, fun hlt => ?_⟩
  obtain ⟨hextents, hunlabelled, hlabels, hothers⟩ := hgrown hlt
  rw [attribute?_congr hattributes, hslots, hlen] at hunlabelled
  refine ⟨hextents, hunlabelled, fun x hx => ?_,
    hothers.trans (otherAttributes_congr hattributes)⟩
  obtain ⟨ls, hls, hlength, hold, hnew, hgaps⟩ := hlabels x hx
  rw [hlen] at hold hnew hgaps
  rw [hslots] at hnew hgaps
  rw [hpadded] at hold
  exact ⟨ls, hls, hlength, hold, hnew, hgaps⟩

theorem rewritten_of_store [Memory] {v w : Vec Value} {q : Position} {values : Data Value}
    (hv : v.Shaped) (h : v.store (Selection.ofPosition v .replace q) values = .ok w) :
    v.Rewritten q.labels w := by
  refine ⟨fun hle => ?_, grownTo_of_store hv h⟩
  obtain ⟨room, hroom, -, hattributes⟩ := store_eq_ok h
  have hlen := length_of_store h
  have hfits : ¬(Selection.ofPosition v .replace q).growsPast v.length = true := by
    simp only [Selection.growsPast, decide_eq_true_eq]
    omega
  rw [if_neg hfits] at hroom
  cases hroom
  exact hattributes

theorem rewritten_of_assign [Memory] {v w value : Vec Value} {q : Position} {k : Kind}
    (hv : v.Shaped) (h : (v.assign (Selection.ofPosition v .replace q) value k).result = .ok w) :
    v.Rewritten q.labels w := by
  obtain ⟨-, old, values, hold, -, hstore⟩ := assign_eq_ok h
  rw [← ofPosition_of_cast hold] at hstore
  exact (rewritten_of_store (hv.cast hold) hstore).of_cast hold

end Vec

def Subscript.labels : Subscript → List (Option String)
  | .given (.vector ⟨.character ls, _, _⟩) => ls
  | .omitted | .given _ => []

def labelsAsked : Mode → List Subscript → List (Option String)
  | .field, [.given x] => [x.scalarText?]
  | .subset, [s] | .element, [s] => s.labels
  | _, _ => []

theorem Subscript.labels_position {s : Subscript} {q : Position} (h : s.position = .ok q) :
    q.labels = s.labels := by
  cases q with
  | named ls =>
    obtain ⟨as, c, rfl⟩ := position_eq_named h
    rfl
  | _ =>
    cases s with
    | omitted => rfl
    | given x =>
      cases x with
      | vector v =>
        obtain ⟨d, as, c⟩ := v
        cases d with
        | character ls => cases h
        | _ => rfl
      | _ => rfl

namespace Value

variable {v w : Vec Value} {ss : List Subscript} {value : Value} {k : Kind}

theorem rewritten_of_assignSubset [Memory] (hv : v.Shaped) (hvalue : value ≠ .null)
    (hss : ss.length ≤ 1) (h : ((Value.vector v).assignSubset ss value k).result = .ok w) :
    v.Rewritten (labelsAsked .subset ss) w := by
  obtain ⟨u, q, hu, hq, hassign⟩ := assignSubset_eq_ok hvalue h
  cases hu
  cases ss with
  | nil =>
    cases hq
    exact Vec.rewritten_of_assign hv hassign
  | cons s rest =>
    obtain rfl : rest = [] := List.length_eq_zero_iff.1 (Nat.le_zero.1 (Nat.le_of_succ_le_succ hss))
    rw [show labelsAsked .subset [s] = s.labels from rfl, ← Subscript.labels_position hq]
    exact Vec.rewritten_of_assign hv hassign

theorem rewritten_of_assignElement [Memory] (hv : v.Shaped) {s : Subscript}
    (h : ((Value.vector v).assignElement s value k).result = .ok w) :
    v.Rewritten (labelsAsked .element [s]) w := by
  unfold assignElement at h
  simp only [Noted.result_bind, Noted.result_lift] at h
  obtain ⟨⟨elements, target⟩, -, h⟩ := bind_eq_ok.1 h
  obtain ⟨u, hu, h⟩ := bind_eq_ok.1 h
  cases hu
  obtain ⟨sel, hsel, h⟩ := bind_eq_ok.1 h
  obtain ⟨q, i, hq, -, rfl, -⟩ := Selection.ofSingle_cases hsel
  rw [show labelsAsked .element [s] = s.labels from rfl, ← Subscript.labels_position hq]
  exact Vec.rewritten_of_assign hv h

theorem fieldName_eq_ok {name : String} (h : fieldName ss = .ok name) :
    labelsAsked .field ss = [some name] := by
  unfold fieldName at h
  split at h
  · split at h
    · rename_i hname
      cases h
      exact congrArg (fun l => [l]) hname
    · cases h
  · cases h

theorem asMembers_eq_ok {u : Vec Value} (h : (Value.vector v).asMembers.result = .ok u) :
    (v.cast .list).result = .ok u := by
  by_cases hlist : v.kind = .list
  · rw [asMembers, if_pos hlist] at h
    rwa [Vec.cast, if_pos hlist]
  · rw [asMembers, if_neg hlist] at h
    exact h

theorem rewritten_of_assignField [Memory] (hv : v.Shaped)
    (h : ((Value.vector v).assignField ss value).result = .ok w) :
    v.Rewritten (labelsAsked .field ss) w := by
  unfold assignField at h
  simp only [Noted.result_bind, Noted.result_lift] at h
  obtain ⟨name, hname, h⟩ := bind_eq_ok.1 h
  obtain ⟨u, hu, h⟩ := bind_eq_ok.1 h
  have hcast := asMembers_eq_ok hu
  rw [fieldName_eq_ok hname]
  exact (Vec.rewritten_of_assign (hv.cast hcast) h).of_cast hcast

/-- An array never grows. -/
theorem rewritten_of_assignArray [Memory] (asked : List (Option String))
    (h : ((Value.vector v).assignArray ss value k).result = .ok w) : v.Rewritten asked w := by
  obtain ⟨sel, hsel, h⟩ := assignArray_eq_ok h
  obtain ⟨hlen, hattributes⟩ := assign_inside (Selection.length_ofArray hsel) h
  exact ⟨fun _ => hattributes, fun hlt => absurd hlt (by omega)⟩

end Value

namespace ReplacePlan

def Serves (s : Shape) : ReplaceStrategy → Prop
  | .field => s.mode = .field
  | .element _ => s.mode = .element ∧ s.subscripts.length ≤ 1
  | .subset _ => s.mode = .subset ∧ s.subscripts.length ≤ 1
  | .foreign | .path | .unchanged | .delete | .matrix _ => True

theorem serves_strategyOf (s : Shape) :
    Sound Failure.Unexpected (Serves s) (strategyOf s) := by
  unfold strategyOf
  refine .ite (fun _ => trivial) fun _ => ?_
  refine .ite (fun _ => .error (by simp)) fun _ => ?_
  refine .ite (fun _ => trivial) fun _ => ?_
  refine .ite (fun _ => trivial) fun _ => ?_
  refine .ite (fun _ => trivial) fun _ => ?_
  refine .ite (fun _ => .error (by simp)) fun _ => ?_
  refine .ite (fun hfield => hfield) fun hfield => ?_
  refine .ite (fun _ => .error (by simp)) fun _ => ?_
  refine .ite (fun _ => trivial) fun _ => ?_
  refine .ite (fun _ => .error (by simp)) fun hone => ?_
  change Serves s (if s.mode = .element then _ else _)
  cases hmode : s.mode with
  | field => exact absurd hmode hfield
  | element => exact ⟨hmode, Nat.le_of_not_lt hone⟩
  | subset => exact ⟨hmode, Nat.le_of_not_lt hone⟩

end ReplacePlan

/-- The attributes of a vector that was written to, whichever way. A vector that is not longer
than before has all of them, in order. A longer one has no extents and no labels along them; it has
labels if it had some before or was asked for new ones; and it has all others, in order. What the
value has for attributes plays no part. -/
theorem assignment_attributes [Memory] (rs rs' : ω) (v : Vec Value) (ss : List Subscript)
    (value y : Value) (mode : Mode) (hv : v.Shaped)
    (hpath : Shape.isPath (.vector v) ss mode = false) (hvalue : value ≠ .null)
    (h : (replace rs (.vector v) ss value mode).result = .ok (y, rs')) :
    ∃ w : Vec Value, y = .vector w ∧ (w.length ≤ v.length → w.attributes = v.attributes) ∧
      (v.length < w.length → v.GrownTo (labelsAsked mode ss) w) := by
  unfold replace at h
  rw [Noted.result_bind] at h
  obtain ⟨p, hp, h⟩ := bind_eq_ok.1 h
  obtain ⟨t, ht, rfl⟩ := map_eq_ok.1 hp
  have hsuits := ReplacePlan.suits_of_strategyOf ht
  have hserves := ReplacePlan.serves_strategyOf (.of (.vector v) ss (some value) mode)
  rw [ht] at hserves
  have hvector := Data.kind_isVector v.data
  -- four of the ways to write need another container or value
  cases t with
  | foreign =>
    rw [show v.data.kind = .foreign from hsuits] at hvector
    cases hvector
  | path => exact absurd (hpath.symm.trans hsuits) (by simp)
  | unchanged =>
    rw [show v.data.kind = .null from hsuits.1] at hvector
    cases hvector
  | delete => exact absurd hsuits.2 (Value.kind_ne_null hvalue)
  | field =>
    simp only [ReplacePlan.run, ReplacePlan.runWith, Noted.result_bind] at h
    obtain ⟨w, hw, h⟩ := bind_eq_ok.1 h
    cases h
    obtain rfl : mode = .field := hserves
    exact ⟨w, rfl, Value.rewritten_of_assignField hv hw⟩
  | matrix target =>
    simp only [ReplacePlan.run, ReplacePlan.runWith, Noted.result_bind] at h
    obtain ⟨w, hw, h⟩ := bind_eq_ok.1 h
    cases h
    exact ⟨w, rfl, Value.rewritten_of_assignArray _ hw⟩
  | element target =>
    obtain ⟨hmode, hone⟩ := hserves
    obtain rfl : mode = .element := hmode
    rcases ss with _ | ⟨s, _ | ⟨s', rest⟩⟩
    · exact absurd rfl hsuits.1
    · simp only [ReplacePlan.run, ReplacePlan.runWith, Noted.result_bind] at h
      obtain ⟨w, hw, h⟩ := bind_eq_ok.1 h
      cases h
      exact ⟨w, rfl, Value.rewritten_of_assignElement hv hw⟩
    · simp [Shape.of] at hone
  | subset target =>
    obtain ⟨hmode, hone⟩ := hserves
    obtain rfl : mode = .subset := hmode
    have hss : ss.length ≤ 1 := by simpa [Shape.of] using hone
    simp only [ReplacePlan.run, ReplacePlan.runWith, Noted.result_bind] at h
    obtain ⟨w, hw, h⟩ := bind_eq_ok.1 h
    cases h
    exact ⟨w, rfl, Value.rewritten_of_assignSubset hv hvalue hss hw⟩

def measuredPair : Vec Value where
  data := .integer [1, 2]
  attributes := some [("unit", .string "kg"), ("dim", .vector (.ofData (.integer [2])))]
  complete := true

theorem shaped_measuredPair : measuredPair.Shaped :=
  .of_extents (by decide) rfl rfl rfl (by decide) rfl

section

attribute [local instance] Memory.unbounded

theorem assignment_attributes_newLabel :
    ∃ (w : Vec Value) (ls : List (Option String)),
      (replace ([] : Records) (.vector measuredPair) [.given (.vector (.ofStrings [some "b"]))]
        (.vector ⟨.integer [7], some [("unit", .string "m")], true⟩) .subset).result =
          .ok (.vector w, []) ∧
      w.attribute? "dim" = none ∧ w.attribute? "names" = some (.vector (.ofStrings ls)) ∧
      ls[0]? = some (some "") ∧ ls[2]? = some (some "b") ∧
      w.otherAttributes = [("unit", .string "kg")] := by
  obtain ⟨w, hy, -, hgrown⟩ := assignment_attributes ([] : Records) [] measuredPair
    [.given (.vector (.ofStrings [some "b"]))]
    (.vector ⟨.integer [7], some [("unit", .string "m")], true⟩) _ .subset shaped_measuredPair rfl
    (by simp) rfl
  cases hy
  obtain ⟨⟨hdim, -⟩, -, hlabels, hothers⟩ := hgrown (by decide)
  obtain ⟨ls, hls, hrelabelled⟩ := hlabels _ rfl
  exact ⟨_, ls, rfl, hdim, congrArg some hls, hrelabelled.old 0 (by decide),
    hrelabelled.new 0 2 _ rfl rfl (by decide), hothers⟩

end

end LazyVectors
