import LazyVectors.Proofs.Invariants
import LazyVectors.Proofs.Setters
/-!
The flag of a vector that promises that no element is missing. It is cleared before a change of
the elements and set again only after the elements were looked at, or where nothing missing can
have come in.
-/

set_option autoImplicit false

namespace LazyVectors

namespace Data

variable {d c e : Data Value}

theorem hasNA_eq_true {d : Data Value} : d.hasNA = true ↔ ∃ i, d.isNAAt i = true := by
  unfold hasNA isNAAt
  rw [List.contains_iff_mem, List.mem_iff_getElem?]
  refine exists_congr fun i => ?_
  cases d.missing[i]? <;> simp

theorem exists_mem_isNA {α : Type} [Element α] (xs : List α) :
    (∃ x, x ∈ xs ∧ Element.isNA x = true) ↔
      ∃ i, i < xs.length ∧ Element.isNA (pick xs (some i)) = true := by
  constructor
  · rintro ⟨x, hx, h⟩
    obtain ⟨i, hi, rfl⟩ := List.getElem_of_mem hx
    exact ⟨i, hi, by simpa [pick, List.getElem?_eq_getElem hi] using h⟩
  · rintro ⟨i, hi, h⟩
    exact ⟨xs[i], List.getElem_mem hi, by simpa [pick, List.getElem?_eq_getElem hi] using h⟩

theorem hasNA_iff_select (d : Data Value) :
    d.hasNA = true ↔ ∃ i < d.length, (d.select [some i]).hasNA = true := by
  cases d with
  | list xs => simp [hasNA, missing, select, mapEach, Element.isNA]
  | _ xs => simpa [hasNA, missing, select, mapEach, length] using exists_mem_isNA xs

theorem Maker.hasNA_iff {α : Type} [Element α] {make : List α → Data Value} (hm : Maker make)
    (xs : List α) : (make xs).hasNA = true ↔ ∃ x ∈ xs, (make [x]).hasNA = true := by
  rw [hasNA_iff_select, hm.length]
  constructor
  · rintro ⟨i, hi, h⟩
    refine ⟨xs[i], List.getElem_mem hi, ?_⟩
    simpa [hm.select, pick, List.getElem?_eq_getElem hi] using h
  · rintro ⟨x, hx, h⟩
    obtain ⟨i, hi, rfl⟩ := List.getElem_of_mem hx
    exact ⟨i, hi, by simpa [hm.select, pick, List.getElem?_eq_getElem hi] using h⟩

theorem hasNA_of_writtenTo {ts : List Nat} (h : WrittenTo d ts c e) (hd : d.hasNA = false)
    (hc : c.hasNA = false) : e.hasNA = false := by
  obtain ⟨α, inst, make, xs, ss, hm, rfl, rfl, rfl, -⟩ := h
  rw [← Bool.not_eq_true, hm.hasNA_iff] at hd hc ⊢
  rintro ⟨x, hx, hna⟩
  rcases mem_of_mem_overwrite hx with hx | hx
  · exact hd ⟨x, hx, hna⟩
  · exact hc ⟨x, hx, hna⟩

end Data

namespace Vec

variable {v w : Vec Value}

/-- The flag is set only if no element is missing. -/
def Honest (v : Vec Value) : Prop := v.complete = true → ∀ i, v.data.isNAAt i = false

theorem honest_iff : v.Honest ↔ (v.complete = true → v.data.hasNA = false) := by
  refine imp_congr_right fun _ => ?_
  rw [← Bool.not_eq_true, Data.hasNA_eq_true, not_exists]
  exact forall_congr' fun i => (Bool.not_eq_true _).symm.to_iff

theorem Honest.of_scanned (h : w.complete = !w.data.hasNA) : w.Honest := by
  rw [honest_iff, h]
  simp

theorem Honest.of_unset (h : w.complete = false) : w.Honest := fun hset => by
  rw [h] at hset
  cases hset

structure SameElements (v w : Vec Value) : Prop where
  data : w.data = v.data
  complete : w.complete = v.complete

theorem SameElements.trans {u : Vec Value} (hv : SameElements u v) (hw : SameElements v w) :
    SameElements u w :=
  ⟨hw.data.trans hv.data, hw.complete.trans hv.complete⟩

theorem Honest.of_sameElements (hv : v.Honest) (h : SameElements v w) : w.Honest := by
  unfold Honest
  rw [h.data, h.complete]
  exact hv

theorem sameElements_removeAttribute (v : Vec Value) (name : String) :
    SameElements v (v.removeAttribute name) := by
  refine ⟨data_removeAttribute v name, ?_⟩
  unfold removeAttribute
  split <;> rfl

theorem sameElements_setNames {ns : List (Option String)} (h : v.setNames ns = .ok w) :
    SameElements v w := by
  obtain ⟨-, rfl⟩ := setNames_eq_ok.1 h
  exact ⟨rfl, rfl⟩

theorem sameElements_setDim {ds : List Nat} (h : v.setDim ds = .ok w) : SameElements v w := by
  obtain ⟨-, rfl⟩ := Setter.setDim_eq_ok.1 h
  exact ⟨rfl, rfl⟩

theorem sameElements_setDimnames {ls : List (Option (List (Option String)))}
    (h : v.setDimnames ls = .ok w) : SameElements v w := by
  unfold setDimnames at h
  split at h
  · cases h
  split at h
  · cases h
  obtain ⟨xs, -, h⟩ := bind_eq_ok.1 h
  cases h
  exact ⟨rfl, rfl⟩

namespace Honest

theorem ofData (d : Data Value) : (Vec.ofData d).Honest := .of_scanned rfl

theorem cast (hv : v.Honest) {k : Kind} (h : (v.cast k).result = .ok w) : w.Honest := by
  unfold Vec.cast at h
  split at h
  · cases h
    exact hv
  · rw [Noted.result_bind] at h
    obtain ⟨d, -, h⟩ := bind_eq_ok.1 h
    cases h
    exact .of_scanned rfl

theorem gathered {es : List Nat} {d : Data Value} (h : Gathered es d w) : w.Honest := by
  cases h with
  | plain => exact ofData d
  | labelled hnames => exact (ofData d).of_sameElements (sameElements_setNames hnames)
  | array _ hdim => exact (ofData d).of_sameElements (sameElements_setDim hdim)
  | labelledArray _ hdim hdimnames =>
    exact (ofData d).of_sameElements
      ((sameElements_setDim hdim).trans (sameElements_setDimnames hdimnames))

theorem subset (hv : v.Honest) {ss : List Subscript} (h : v.subset ss = .ok w) : w.Honest := by
  rcases subset_cases h with rfl | ⟨is, hgathered⟩
  · exact hv
  · exact gathered hgathered

theorem subsetArray {ss : List Subscript} {drop : Bool} (h : v.subsetArray ss drop = .ok w) :
    w.Honest := by
  obtain ⟨sel, -, hgathered⟩ := subsetArray_cases h
  exact gathered hgathered

end Honest

/-- The flag after a write: it was set, no place came in that nothing was written to, and no
value is missing. -/
theorem complete_of_store [Memory] {sel : Selection} {values : Data Value}
    (h : v.store sel values = .ok w) :
    w.complete = (v.complete && !sel.growsPast v.length && !values.hasNA) := by
  unfold store at h
  simp only at h
  split at h
  · obtain ⟨room, -, h⟩ := bind_eq_ok.1 h
    obtain ⟨d, -, h⟩ := bind_eq_ok.1 h
    cases h
    rfl
  · obtain ⟨_, -, h⟩ := bind_eq_ok.1 h
    obtain ⟨d, -, h⟩ := bind_eq_ok.1 h
    cases h
    rfl

theorem complete_of_without {d : Nat} {ds : List Nat} (h : v.without (d :: ds) = .ok w) :
    w.complete = !w.data.hasNA := by
  simp only [without, List.isEmpty_cons, Bool.false_eq_true, if_false] at h
  split at h
  · obtain ⟨named, -, rfl⟩ := map_eq_ok.1 h
    rfl
  · cases h
    rfl

namespace Honest

theorem store [Memory] (hv : v.Honest) {sel : Selection} {values : Data Value}
    (h : v.store sel values = .ok w) : w.Honest := by
  rw [honest_iff, complete_of_store h]
  intro hset
  simp only [Bool.and_eq_true, Bool.not_eq_true'] at hset
  obtain ⟨⟨hcomplete, hfits⟩, hvalues⟩ := hset
  obtain ⟨room, hroom, hwritten, -⟩ := store_eq_ok h
  rw [hfits] at hroom
  cases hroom
  exact Data.hasNA_of_writtenTo (Data.writtenTo_of_assignRecycled hwritten)
    (honest_iff.1 hv hcomplete) hvalues

theorem assign [Memory] (hv : v.Honest) {sel : Selection} {value : Vec Value} {k : Kind}
    (h : (v.assign sel value k).result = .ok w) : w.Honest := by
  obtain ⟨-, old, values, hold, -, hstore⟩ := assign_eq_ok h
  exact (hv.cast hold).store hstore

theorem delete (hv : v.Honest) {ss : List Subscript} {mode : Mode}
    (h : v.delete ss mode = .ok w) : w.Honest := by
  obtain ⟨p, -, hw⟩ := delete_eq_ok h
  generalize ascending (Selection.ofPosition v .extract p).targets = doomed at hw
  cases doomed with
  | nil =>
    cases hw
    exact hv
  | cons d ds => exact .of_scanned (complete_of_without hw)

end Honest

end Vec

namespace Foreign

variable {ω : Type} [Foreign ω] {P : Value → Prop} {rs rs' : ω} {object : String}
  {ss : List Subscript} {x : Value}

def Answers (rs : ω) (x : Value) : Prop := ∃ object key, get rs object key = .ok x

/-- Objects answer with what they did before and with what was written to them. -/
def Storing (ω : Type) [Foreign ω] : Prop :=
  ∀ {rs rs' : ω} {object : String} {key : Key} {x y : Value},
    set rs object key x = .ok rs' → Answers rs' y → y = x ∨ Answers rs y

def Hold (P : Value → Prop) (rs : ω) : Prop := ∀ y, Answers rs y → Value.Throughout P y

theorem Hold.read (h : Hold P rs) (hx : Foreign.read rs object ss = .ok x) :
    Value.Throughout P x := by
  obtain ⟨key, -, hx⟩ := bind_eq_ok.1 hx
  split at hx
  · rename_i o _
    exact h x ⟨o, key, hx⟩
  · cases hx

theorem Hold.write (hω : Storing ω) (h : Hold P rs) (hx : Value.Throughout P x)
    (hw : Foreign.write rs object ss x = .ok rs') : Hold P rs' := by
  obtain ⟨key, -, hw⟩ := bind_eq_ok.1 hw
  split at hw
  · intro y hy
    rcases hω hw hy with rfl | hy
    · exact hx
    · exact h y hy
  · cases hw

end Foreign

namespace Value

def Honest : Value → Prop
  | .vector v => v.Honest
  | .null | .symbol _ | .closure _ | .foreign _ => True

theorem plain_honest : Plain Honest := ⟨trivial, Vec.Honest.ofData⟩

end Value

/-- Honest flags, in the values, in everything in them and in what foreign objects answer with. -/
def honestContract (ω : Type) [Foreign ω] : Contract ω :=
  ⟨Value.Honest, Foreign.Hold Value.Honest, fun _ => True, fun _ => False⟩

theorem sound_of_ok {α : Type} {P : α → Prop} {r : Except Failure α} (h : ∀ a, r = .ok a → P a) :
    Sound (fun _ => False) P r := by
  cases r with
  | error e => exact not_false
  | ok a => exact h a rfl

/-- Whatever is read or written, and whatever the subscripts are, a flag stays honest. -/
theorem kept_honestContract [Memory] {ω : Type} [Foreign ω] (hω : Foreign.Storing ω) :
    (honestContract ω).Kept where
  fault _ h := h.elim
  plain := Value.plain_honest
  step _ _ := trivial
  subset _ hv := sound_of_ok fun _ h => Vec.Honest.subset hv h
  subsetArray _ _ _ _ := sound_of_ok fun _ h => Vec.Honest.subsetArray h
  assign _ _ hv _ := sound_of_ok fun _ h => Vec.Honest.assign hv h
  delete _ _ hv := sound_of_ok fun _ h => Vec.Honest.delete hv h
  cast _ hv := sound_of_ok fun _ h => Vec.Honest.cast hv h
  read _ hrs _ := sound_of_ok fun _ h => hrs.read h
  write _ hrs _ hx := sound_of_ok fun _ h => hrs.write hω hx h

end LazyVectors
