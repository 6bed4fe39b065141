import LazyVectors.Proofs.DeletedPlaces
import LazyVectors.Proofs.Members
import LazyVectors.Proofs.WriteBack
set_option autoImplicit false

namespace LazyVectors

variable {ω : Type} [Foreign ω]

variable {v n : Vec Value} {s : Subscript} {name : String}

structure Subscript.Label (s : Subscript) (name : String) : Prop where
  position : s.position = .ok (.named [some name])
  fieldName : fieldName [s] = .ok name
  single : s.Single

theorem Subscript.label_of_data (hn : n.data = .character [some name]) :
    (Subscript.given (.vector n)).Label name := by
  obtain ⟨d, as, c⟩ := n
  cases hn
  exact ⟨rfl, rfl, rfl⟩

theorem Selection.indices_label (v : Vec Value) (l : Option String) :
    ∃ i, (ofPosition v .replace (.named [l])).indices = [some i] := by
  cases hplace : labelPlace (v.names?.getD []) l with
  | some i => exact ⟨i, congrArg indices (Vec.ofPosition_of_place hplace)⟩
  | none => exact ⟨v.length, congrArg indices (Vec.ofPosition_of_new hplace)⟩

theorem SingleIndex.ofSubscript_label (v : Vec Value) (hs : s.Label name) : ofSubscript v s =
    .ok ((labelPlace (v.names?.getD []) (some name)).elim .notFound .index) := by
  have hposition : ofSubscript v s = ofPosition v (.named [some name]) := by
    rw [ofSubscript, hs.position]
    rfl
  rw [hposition, ofPosition, labelPlace_getD]
  cases v.names?.bind (findName · name) <;> rfl

namespace Vec

theorem field_label (v : Vec Value) (hs : s.Label name) : v.field [s] =
    .ok (((labelPlace (v.names?.getD []) (some name)).bind v.element?).getD .null) := by
  unfold field
  rw [hs.fieldName]
  rfl

theorem subscript_label (hv : v.NamesFit) (hlist : v.kind = .list) (hs : s.Label name) :
    v.subscript s =
      .ok (((labelPlace (v.names?.getD []) (some name)).bind v.element?).getD .null) := by
  have hplace := SingleIndex.ofSubscript_label v hs
  cases hi : labelPlace (v.names?.getD []) (some name) with
  | some i =>
    rw [hi] at hplace
    have hlt : i < v.length := Nat.lt_of_lt_of_le (labelPlace_lt hi) hv.length_le
    obtain ⟨y, hy⟩ := exists_element? hlt
    rw [subscript_of_index hplace hy, Option.bind_some, hy, Option.getD_some]
  | none =>
    rw [hi] at hplace
    unfold subscript
    rw [hplace]
    exact if_pos hlist

end Vec

theorem Value.assignField_label [Memory] (hlist : v.kind = .list) (hs : s.Label name) (y : Value) :
    (Value.vector v).assignField [s] y =
      v.assign (Selection.ofPosition v .replace (.named [some name])) (.ofList [y]) .list := by
  have hmembers : (Value.vector v).asMembers = .ok v := if_pos hlist
  unfold assignField
  rw [hs.fieldName, hmembers]
  rfl

theorem Value.assignElement_label [Memory] (hs : s.Label name) (y : Value) :
    (Value.vector v).assignElement s y .list =
      v.assign (Selection.ofPosition v .replace (.named [some name])) (.ofList [y]) .list := by
  obtain ⟨i, hi⟩ := Selection.indices_label v (some name)
  rw [assignElement_eq (e := .ofList [y]) rfl,
    Selection.ofSingle_eq_ok hs.position (by simp) hi, Noted.lift_ok_bind]

/-- One label takes away one element at most, so that `[[` has nothing to refuse. -/
theorem Vec.delete_label (v : Vec Value) (hs : s.Label name) :
    v.delete [s] .field = v.delete [s] .element := by
  have hone : ¬1 < (Selection.ofPosition v .extract (.named [some name])).indices.length := by
    unfold Selection.ofPosition
    rw [Selection.indices_named_extract]
    simp
  unfold delete
  simp only [hs.position, hs.fieldName, Except.map, bind, Except.bind, hone, and_false, if_false]

/-- `x$name` and `x[["name"]]` agree on lists. Reading gives the same member or the same error, and
so does writing, with the same warnings and whatever is written, `NULL` among it. -/
theorem field_agrees_with_element [Memory] (rs : ω) (v n : Vec Value) (name : String)
    (drop : Bool) (hv : v.NamesFit) (hlist : v.kind = .list)
    (hn : n.data = .character [some name]) :
    extract rs (.vector v) [.given (.vector n)] .field drop =
      extract rs (.vector v) [.given (.vector n)] .element drop ∧
    ∀ y, replace rs (.vector v) [.given (.vector n)] y .field =
      replace rs (.vector v) [.given (.vector n)] y .element := by
  have hs := Subscript.label_of_data hn
  refine ⟨?_, fun y => ?_⟩
  · rw [extract_field rs hlist, extract_element rs (.inr hs.single), Vec.field_label v hs,
      Vec.subscript_label hv hlist hs]
  · by_cases hy : y = .null
    · subst hy
      calc replace rs (.vector v) [.given (.vector n)] .null .field
          = (do return (.vector (← v.delete [.given (.vector n)] .field), rs)) :=
            replace_null rs hlist fun h => nomatch h
        _ = replace rs (.vector v) [.given (.vector n)] .null .element := by
            rw [replace_null rs hlist fun _ => hs.single, Vec.delete_label v hs]
    · have hkind : v.kind.promote y.asElements.kind = .list := by
        rw [hlist]
        exact Kind.list_promote (Data.kind_isVector _)
      rw [replace_field rs (x := .vector v) (.inr hlist) _ hy,
        replace_element rs (.inr hs.single) hy, hkind, Value.assignField_label hlist hs,
        Value.assignElement_label hs]

def sameLabels : Vec Value where
  data := .list [.symbol "s", .logical true, .null]
  attributes := some [("names", .vector (.ofStrings [some "a", some "a", some ""])),
    ("dim", .vector (.ofData (.integer [3])))]
  complete := true

section

attribute [local instance] Memory.unbounded

/-- The first of the same labels is meant, and the empty label is always a new one. -/
theorem field_agrees_with_element_sameLabels :
    extract ([] : Records) (.vector sameLabels) [.given (.string "a")] .element true =
      .ok (.symbol "s") ∧
    (replace ([] : Records) (.vector sameLabels) [.given (.string "a")] .null .element).result =
      .ok (.vector ⟨.list [.logical true, .null],
        some [("names", .vector (.ofStrings [some "a", some ""]))], true⟩, []) ∧
    (replace ([] : Records) (.vector sameLabels) [.given (.string "")] (.symbol "t")
        .element).result =
      .ok (.vector ⟨.list [.symbol "s", .logical true, .null, .symbol "t"],
        some [("names", .vector (.ofStrings [some "a", some "a", some "", some ""]))], false⟩,
        []) := by
  have hv : sameLabels.NamesFit := fun ns h => by
    cases h
    rfl
  have hread := fun name =>
    (field_agrees_with_element ([] : Records) sameLabels (.ofStrings [some name]) name true hv
      rfl rfl).1
  have hwrite := fun name =>
    (field_agrees_with_element ([] : Records) sameLabels (.ofStrings [some name]) name true hv
      rfl rfl).2
  refine ⟨(hread "a").symm.trans rfl, ?_, ?_⟩
  · exact (congrArg Noted.result (hwrite "a" .null)).symm.trans rfl
  · exact (congrArg Noted.result (hwrite "" (.symbol "t"))).symm.trans rfl

end

end LazyVectors
