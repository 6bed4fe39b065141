import LazyVectors.Proofs.Sameness
import LazyVectors.Vec.Attributes
/-!
Equality of values is an equivalence, although doubles of different bits can be equal and
doubles are compared within lists and attributes of any depth.
-/

set_option autoImplicit false

namespace LazyVectors

namespace Double

variable {x y : Double}

theorem isNaN_of_isZero (h : x.isZero = true) : x.isNaN = false := by
  have hbits : x.bits.toNat % signWeight = 0 := eq_of_beq h
  have hfield : x.exponentField ≠ 2047 := by
    unfold exponentField
    unfold signWeight at hbits
    unfold exponentWeight
    omega
  rw [isNaN, beq_false_of_ne hfield, Bool.false_and]

theorem isNA_of_isZero (h : x.isZero = true) : x.isNA = false := by
  rw [isNA, isNaN_of_isZero h, Bool.false_and]

theorem identical_of_isZero (h : x.isZero = true) (z : Double) : x.identical z = z.isZero := by
  have hx := isNaN_of_isZero h
  cases hz : z.isZero with
  | true => simp [identical, hx, isNaN_of_isZero hz, h, hz]
  | false =>
    have hne : x ≠ z := fun hsame => by simp [← hsame, h] at hz
    simp [identical, hx, hz, hne]

/-- Equal doubles are two NaNs of one kind, the same, or two zeros. -/
theorem identical_cases (h : x.identical y = true) :
    (x.isNaN = true ∧ y.isNaN = true ∧ x.isNA = y.isNA) ∨ x = y ∨
      x.isZero = true ∧ y.isZero = true := by
  unfold identical at h
  split at h
  · exact .inl (by simpa [and_assoc] using h)
  · exact .inr (by simpa using h)

theorem isNA_of_identical (h : x.identical y = true) : x.isNA = y.isNA := by
  obtain ⟨-, -, hna⟩ | rfl | ⟨hx, hy⟩ := identical_cases h
  · exact hna
  · rfl
  · rw [isNA_of_isZero hx, isNA_of_isZero hy]

theorem identical_congr (h : x.identical y = true) (z : Double) :
    x.identical z = y.identical z := by
  obtain ⟨hx, hy, hna⟩ | rfl | ⟨hx, hy⟩ := identical_cases h
  · simp [identical, hx, hy, hna]
  · rfl
  · rw [identical_of_isZero hx, identical_of_isZero hy]

end Double

namespace Cplx

variable {c d : Cplx}

theorem identical_congr (h : c.identical d = true) (e : Cplx) : c.identical e = d.identical e := by
  obtain ⟨hre, him⟩ := Bool.and_eq_true_iff.1 h
  rw [identical, identical, Double.identical_congr hre, Double.identical_congr him]

theorem isNA_of_identical (h : c.identical d = true) : Element.isNA c = Element.isNA d := by
  obtain ⟨hre, him⟩ := Bool.and_eq_true_iff.1 h
  change (c.re.isNA || c.im.isNA) = (d.re.isNA || d.im.isNA)
  rw [Double.isNA_of_identical hre, Double.isNA_of_identical him]

end Cplx

theorem Closure.same_congr {a b : Closure} (h : a.same b = true) (c : Closure) :
    a.same c = b.same c := by
  obtain ⟨hfunction, hframe⟩ := Bool.and_eq_true_iff.1 h
  rw [same, same, eq_of_beq hfunction, eq_of_beq hframe]

section

variable {α β : Type} {r : α → α → Bool}

theorem pairwiseAll_cons_eq_true {a b : α} {as bs : List α} :
    pairwiseAll r (a :: as) (b :: bs) = true ↔ r a b = true ∧ pairwiseAll r as bs = true :=
  Bool.and_eq_true_iff

theorem pairwiseAll_congr (hr : ∀ a b, r a b = true → ∀ c, r a c = r b c) {as bs : List α}
    (h : pairwiseAll r as bs = true) (cs : List α) :
    pairwiseAll r as cs = pairwiseAll r bs cs := by
  induction as generalizing bs cs with
  | nil =>
    cases bs with
    | nil => rfl
    | cons b bs => cases h
  | cons a as ih =>
    cases bs with
    | nil => cases h
    | cons b bs =>
      obtain ⟨hab, hrest⟩ := pairwiseAll_cons_eq_true.1 h
      cases cs with
      | nil => rfl
      | cons c cs => rw [pairwiseAll, pairwiseAll, hr a b hab, ih hrest]

theorem map_eq_of_pairwiseAll {f : α → β} (hf : ∀ a b, r a b = true → f a = f b)
    {as bs : List α} (h : pairwiseAll r as bs = true) : as.map f = bs.map f := by
  induction as generalizing bs with
  | nil =>
    cases bs with
    | nil => rfl
    | cons b bs => cases h
  | cons a as ih =>
    cases bs with
    | nil => cases h
    | cons b bs =>
      obtain ⟨hab, hrest⟩ := pairwiseAll_cons_eq_true.1 h
      rw [List.map_cons, List.map_cons, hf a b hab, ih hrest]

end

/-- Equal values are the same, or equal vectors, or closures that refer to the same. -/
theorem Value.same_cases {x y : Value} (h : x.same y = true) : x = y ∨
    (∃ v w, x = .vector v ∧ y = .vector w ∧ Vec.same v w = true) ∨
    ∃ a b, x = .closure a ∧ y = .closure b ∧ a.same b = true := by
  cases x with
  | null =>
    cases y with
    | null => exact .inl rfl
    | _ => cases h
  | symbol name =>
    cases y with
    | symbol other => exact .inl (congrArg _ (eq_of_beq h))
    | _ => cases h
  | vector v =>
    cases y with
    | vector w => exact .inr (.inl ⟨v, w, rfl, rfl, h⟩)
    | _ => cases h
  | closure a =>
    cases y with
    | closure b => exact .inr (.inr ⟨a, b, rfl, rfl, h⟩)
    | _ => cases h
  | foreign object =>
    cases y with
    | foreign other => exact .inl (congrArg _ (eq_of_beq h))
    | _ => cases h

theorem Data.same_cases {d e : Data Value} (h : d.same e = true) : d = e ∨
    (∃ xs ys, d = .double xs ∧ e = .double ys ∧ pairwiseAll Double.identical xs ys = true) ∨
    (∃ xs ys, d = .complex xs ∧ e = .complex ys ∧ pairwiseAll Cplx.identical xs ys = true) ∨
    ∃ xs ys, d = .list xs ∧ e = .list ys ∧ Value.sameAll xs ys = true := by
  cases d with
  | logical xs =>
    cases e with
    | logical ys => exact .inl (congrArg _ (eq_of_beq h))
    | _ => cases h
  | integer xs =>
    cases e with
    | integer ys => exact .inl (congrArg _ (eq_of_beq h))
    | _ => cases h
  | double xs =>
    cases e with
    | double ys => exact .inr (.inl ⟨xs, ys, rfl, rfl, h⟩)
    | _ => cases h
  | complex xs =>
    cases e with
    | complex ys => exact .inr (.inr (.inl ⟨xs, ys, rfl, rfl, h⟩))
    | _ => cases h
  | character xs =>
    cases e with
    | character ys => exact .inl (congrArg _ (eq_of_beq h))
    | _ => cases h
  | list xs =>
    cases e with
    | list ys => exact .inr (.inr (.inr ⟨xs, ys, rfl, rfl, h⟩))
    | _ => cases h

mutual

theorem Value.same_congr : ∀ (x : Value) {y : Value}, x.same y = true → ∀ z, x.same z = y.same z
  | .null, y, h, z | .symbol _, y, h, z | .foreign _, y, h, z => by
    obtain rfl | ⟨_, _, hx, -⟩ | ⟨_, _, hx, -⟩ := Value.same_cases h
    · rfl
    all_goals cases hx
  | .closure a, y, h, z => by
    cases y with
    | closure b =>
      cases z with
      | closure c => exact Closure.same_congr h c
      | _ => rfl
    | _ => cases h
  | .vector v, y, h, z => by
    cases y with
    | vector w =>
      cases z with
      | vector u => exact Vec.same_congr v h u
      | _ => rfl
    | _ => cases h

theorem Vec.same_congr : ∀ (v : Vec Value) {w : Vec Value}, Vec.same v w = true →
    ∀ u, Vec.same v u = Vec.same w u
  | ⟨d, as, _⟩, ⟨e, bs, _⟩, h, ⟨f, cs, _⟩ => by
    obtain ⟨hdata, hattributes⟩ := Bool.and_eq_true_iff.1 h
    rw [Vec.same, Vec.same, Data.same_congr d hdata, Vec.sameAttributes_congr as hattributes]

theorem Data.same_congr : ∀ (d : Data Value) {e : Data Value}, d.same e = true →
    ∀ f, d.same f = e.same f
  | .logical _, e, h, f | .integer _, e, h, f | .character _, e, h, f => by
    obtain rfl | ⟨_, _, hd, -⟩ | ⟨_, _, hd, -⟩ | ⟨_, _, hd, -⟩ := Data.same_cases h
    · rfl
    all_goals cases hd
  | .double xs, e, h, f => by
    cases e with
    | double ys =>
      cases f with
      | double zs =>
        exact pairwiseAll_congr (r := Double.identical) (fun _ _ => Double.identical_congr) h zs
      | _ => rfl
    | _ => cases h
  | .complex xs, e, h, f => by
    cases e with
    | complex ys =>
      cases f with
      | complex zs =>
        exact pairwiseAll_congr (r := Cplx.identical) (fun _ _ => Cplx.identical_congr) h zs
      | _ => rfl
    | _ => cases h
  | .list xs, e, h, f => by
    cases e with
    | list ys =>
      cases f with
      | list zs => exact Value.sameAll_congr xs h zs
      | _ => rfl
    | _ => cases h

theorem Value.sameAll_congr : ∀ (xs : List Value) {ys : List Value},
    Value.sameAll xs ys = true → ∀ zs, Value.sameAll xs zs = Value.sameAll ys zs
  | [], ys, h, zs => by
    cases ys with
    | nil => rfl
    | cons y ys => cases h
  | x :: xs, ys, h, zs => by
    cases ys with
    | nil => cases h
    | cons y ys =>
      obtain ⟨hxy, hrest⟩ := Bool.and_eq_true_iff.1 h
      cases zs with
      | nil => rfl
      | cons z zs =>
        rw [Value.sameAll, Value.sameAll, Value.same_congr x hxy, Value.sameAll_congr xs hrest]

theorem Vec.sameAttributes_congr : ∀ (as : Option (List (String × Value)))
    {bs : Option (List (String × Value))}, Vec.sameAttributes as bs = true →
    ∀ cs, Vec.sameAttributes as cs = Vec.sameAttributes bs cs
  | none, bs, h, cs => by
    cases bs with
    | none => rfl
    | some bs => cases h
  | some as, bs, h, cs => by
    cases bs with
    | none => cases h
    | some bs =>
      cases cs with
      | none => rfl
      | some cs => exact Vec.sameEntries_congr as h cs

theorem Vec.sameEntries_congr : ∀ (as : List (String × Value)) {bs : List (String × Value)},
    Vec.sameEntries as bs = true → ∀ cs, Vec.sameEntries as cs = Vec.sameEntries bs cs
  | [], bs, h, cs => by
    cases bs with
    | nil => rfl
    | cons b bs => cases h
  | a :: as, bs, h, cs => by
    cases bs with
    | nil => cases h
    | cons b bs =>
      obtain ⟨hab, hrest⟩ := Bool.and_eq_true_iff.1 h
      cases cs with
      | nil => rfl
      | cons c cs =>
        rw [Vec.sameEntries, Vec.sameEntries, Vec.sameEntry_congr a hab,
          Vec.sameEntries_congr as hrest]

theorem Vec.sameEntry_congr : ∀ (a : String × Value) {b : String × Value},
    Vec.sameEntry a b = true → ∀ c, Vec.sameEntry a c = Vec.sameEntry b c
  | (m, x), (n, y), h, (k, z) => by
    obtain ⟨hname, hxy⟩ := Bool.and_eq_true_iff.1 h
    rw [Vec.sameEntry, Vec.sameEntry, eq_of_beq hname, Value.same_congr x hxy]

end

namespace Value

variable {x y z : Value}

theorem same_symm (h : x.same y = true) : y.same x = true := by
  rw [← same_congr x h, same_refl]

theorem same_trans (hxy : x.same y = true) (hyz : y.same z = true) : x.same z = true := by
  rw [same_congr x hxy, hyz]

theorem sameAll_eq_pairwiseAll (xs ys : List Value) : sameAll xs ys = pairwiseAll same xs ys := by
  induction xs generalizing ys with
  | nil => cases ys <;> rfl
  | cons x xs ih =>
    cases ys with
    | nil => rfl
    | cons y ys => rw [sameAll, pairwiseAll, ih]

end Value

theorem Data.missing_of_same {d e : Data Value} (h : d.same e = true) :
    d.kind = e.kind ∧ d.missing = e.missing := by
  obtain rfl | ⟨xs, ys, rfl, rfl, hxs⟩ | ⟨xs, ys, rfl, rfl, hxs⟩ | ⟨xs, ys, rfl, rfl, hxs⟩ :=
    same_cases h
  · exact ⟨rfl, rfl⟩
  · exact ⟨rfl, map_eq_of_pairwiseAll (r := Double.identical) (f := Element.isNA)
      (fun _ _ => Double.isNA_of_identical) hxs⟩
  · exact ⟨rfl, map_eq_of_pairwiseAll (r := Cplx.identical) (f := Element.isNA)
      (fun _ _ => Cplx.isNA_of_identical) hxs⟩
  · -- no element of a list is missing, so only the lengths matter
    rw [Value.sameAll_eq_pairwiseAll] at hxs
    exact ⟨rfl, map_eq_of_pairwiseAll (f := Element.isNA) (fun _ _ _ => rfl) hxs⟩

theorem Vec.extentNames?_of_same {x y : Value} (h : x.same y = true) :
    extentNames? x = extentNames? y := by
  obtain rfl | ⟨v, w, rfl, rfl, h⟩ | ⟨a, b, rfl, rfl, -⟩ := Value.same_cases h
  · rfl
  · obtain ⟨d, as, c⟩ := v
    obtain ⟨e, bs, c'⟩ := w
    have hdata : d.same e = true := (Bool.and_eq_true_iff.1 h).1
    obtain rfl | ⟨_, _, rfl, rfl, -⟩ | ⟨_, _, rfl, rfl, -⟩ | ⟨_, _, rfl, rfl, -⟩ :=
      Data.same_cases hdata
    · cases d <;> rfl
    all_goals rfl
  · rfl

namespace Vec

theorem same_iff {v w : Vec Value} : Vec.same v w = true ↔
    v.data.same w.data = true ∧ sameAttributes v.attributes w.attributes = true := by
  obtain ⟨d, as, c⟩ := v
  obtain ⟨e, bs, c'⟩ := w
  rw [Vec.same, Bool.and_eq_true]

theorem lookup_of_sameEntries (name : String) {as bs : List (String × Value)}
    (h : sameEntries as bs = true) :
    (as.lookup name).bind extentNames? = (bs.lookup name).bind extentNames? := by
  induction as generalizing bs with
  | nil =>
    cases bs with
    | nil => rfl
    | cons b bs => cases h
  | cons a as ih =>
    cases bs with
    | nil => cases h
    | cons b bs =>
      obtain ⟨m, x⟩ := a
      obtain ⟨n, y⟩ := b
      obtain ⟨hentry, hrest⟩ := Bool.and_eq_true_iff.1 h
      obtain ⟨hname, hxy⟩ := Bool.and_eq_true_iff.1 hentry
      obtain rfl : m = n := eq_of_beq hname
      rw [List.lookup_cons, List.lookup_cons]
      split
      · exact extentNames?_of_same hxy
      · exact ih hrest

theorem names?_eq (v : Vec Value) : v.names? = (v.attribute? "names").bind extentNames? := by
  unfold names?
  cases v.attribute? "names" with
  | none => rfl
  | some x =>
    cases x with
    | vector v =>
      obtain ⟨d, as, c⟩ := v
      cases d <;> rfl
    | _ => rfl

theorem names?_of_same {v w : Vec Value} (h : Vec.same v w = true) : v.names? = w.names? := by
  have hattributes := (same_iff.1 h).2
  rw [names?_eq, names?_eq, attribute?, attribute?]
  cases has : v.attributes with
  | none =>
    cases hbs : w.attributes with
    | none => rfl
    | some bs => simp [has, hbs, sameAttributes] at hattributes
  | some as =>
    cases hbs : w.attributes with
    | none => simp [has, hbs, sameAttributes] at hattributes
    | some bs =>
      rw [has, hbs] at hattributes
      exact lookup_of_sameEntries "names" hattributes

end Vec

/-- Equality of values is reflexive, symmetric and transitive, and equal vectors are of one kind,
equally long, labelled alike and missing elements at the same places. -/
theorem equality_equivalence :
    Equivalence (fun x y : Value => (x == y) = true) ∧
    ∀ v w : Vec Value, (Value.vector v == .vector w) = true →
      v.kind = w.kind ∧ v.length = w.length ∧ v.names? = w.names? ∧
        ∀ i, v.data.isNAAt i = w.data.isNAAt i := by
  refine ⟨⟨Value.same_refl, Value.same_symm, Value.same_trans⟩, fun v w h => ?_⟩
  obtain ⟨hkind, hmissing⟩ := Data.missing_of_same (Vec.same_iff.1 h).1
  refine ⟨hkind, ?_, Vec.names?_of_same h, fun i => ?_⟩
  · rw [Vec.length, Vec.length, ← Data.length_missing, hmissing, Data.length_missing]
  · rw [Data.isNAAt, Data.isNAAt, hmissing]

theorem equality_equivalence_bits :
    (Value.vector (.ofData (.double [.nan, .na, .zero])) == .vector (.ofData
      (.double [⟨0xFFF0000000000001⟩, ⟨0xFFF80000000007A2⟩, ⟨0x8000000000000000⟩]))) = true ∧
    ∀ i, (Data.double [.nan, .na, .zero]).isNAAt i = (Data.double
      [⟨0xFFF0000000000001⟩, ⟨0xFFF80000000007A2⟩, ⟨0x8000000000000000⟩]).isNAAt i := by
  have hsame : (Value.vector (.ofData (.double [.nan, .na, .zero])) == .vector (.ofData
      (.double [⟨0xFFF0000000000001⟩, ⟨0xFFF80000000007A2⟩, ⟨0x8000000000000000⟩]))) = true := by
    decide
  obtain ⟨-, -, -, hmissing⟩ := equality_equivalence.2 _ _ hsame
  exact ⟨hsame, hmissing⟩

end LazyVectors
