import LazyVectors.Proofs.Invariants
set_option autoImplicit false

namespace LazyVectors

variable {ω : Type} [Foreign ω]

namespace Value

/-- A vector of the right shape, or a value that is neither a vector nor foreign. -/
def Sane : Value → Prop
  | .vector v => v.Shaped
  | .foreign _ => False
  | .null | .symbol _ | .closure _ => True

def WellFormed (x : Value) : Prop := Throughout Sane x

theorem plain_sane : Plain Sane := ⟨trivial, Vec.Shaped.ofData⟩

end Value

namespace Vec

theorem Shaped.subsetArray {v w : Vec Value} (hv : v.Shaped) {ss : List Subscript} {drop : Bool}
    (hss : ∀ s ∈ ss, s.Short) (h : v.subsetArray ss drop = .ok w) : w.Shaped := by
  obtain ⟨sel, hsel, hgathered⟩ := subsetArray_cases h
  obtain ⟨hlen, perDim, hperDim, -, rfl⟩ := Selection.ofArray_eq_ok hsel
  have hextents : ∀ d ∈ v.dim?.getD [], d < extentBound := by
    intro d hd
    cases hds : v.dim? with
    | none => simp [hds] at hd
    | some ds => exact (hv.dims hds).2 d (by simpa [hds] using hd)
  exact gathered ((Selection.alongExtents_eq_ok hlen hperDim).2 hextents hss) hgathered

end Vec

/-- Values of the right shape, subscripts whose lengths fit an extent, and no access out of
range. -/
def shapeContract (ω : Type) : Contract ω :=
  ⟨Value.Sane, fun _ => True, Subscript.Short, OutOfRange⟩

theorem kept_shapeContract [Memory] : (shapeContract ω).Kept where
  fault _ := OutOfRange.unexpected
  plain := Value.plain_sane
  step d hd n hn := by
    have hn' : n = 1 := (Option.some.inj hn).symm.trans hd
    rw [hn']
    decide
  subset ss hv := (Vec.avoids_subset (fun _ => OutOfRange.unexpected) (fun _ => hv) ss).sound
    fun _ h => Vec.Shaped.subset hv h
  subsetArray ss drop hv hss :=
    (Vec.avoids_subsetArray (fun _ => OutOfRange.unexpected) (fun _ => hv) ss drop).sound
      fun _ h => Vec.Shaped.subsetArray hv hss h
  assign value k hv hsel :=
    (Vec.avoids_assign (fun _ => OutOfRange.unexpected) (fun _ => hv) hsel value k).sound
      fun _ h => Vec.Shaped.assign hv h
  delete ss mode hv := ((Vec.ordinary_delete _ ss mode).avoids fun _ => OutOfRange.unexpected).sound
    fun _ h => Vec.Shaped.delete hv h
  cast k hv := ((Vec.ordinary_cast _ k).avoids fun _ => OutOfRange.unexpected).sound
    fun _ h => Vec.Shaped.cast hv h
  read _ _ h := h.elim
  write _ _ h := h.elim

/-- On native values of the right shape no access of any kind reaches out of range, and all that
it returns is of the right shape again. -/
theorem access_wellFormed [Memory] (rs : ω) (x value : Value) (ss : List Subscript) (mode : Mode)
    (drop : Bool) (hx : x.WellFormed) (hvalue : value.WellFormed)
    (hss : ∀ s ∈ ss, ∀ n, s.length? = some n → n < extentBound) :
    (extract rs x ss mode drop ≠ .error (.internal .outOfRange) ∧
      ∀ r, extract rs x ss mode drop = .ok r → r.WellFormed) ∧
    ((replace rs x ss value mode).result ≠ .error (.internal .outOfRange) ∧
      ∀ y rs', (replace rs x ss value mode).result = .ok (y, rs') → y.WellFormed) := by
  have hread : Sound OutOfRange Value.WellFormed (extract rs x ss mode drop) :=
    kept_shapeContract.extract trivial hx hss mode drop
  have hwrite : Sound OutOfRange (fun r => r.1.WellFormed ∧ True)
      (replace rs x ss value mode).result := kept_shapeContract.replace trivial hx hvalue mode
  refine ⟨⟨fun h => ?_, fun r h => ?_⟩, fun h => ?_, fun y rs' h => ?_⟩
  · rw [h] at hread
    exact hread rfl
  · rw [h] at hread
    exact hread
  · rw [h] at hwrite
    exact hwrite rfl
  · rw [h] at hwrite
    exact hwrite.1

def labelledMatrix : Vec Value where
  data := .integer [1, 2, 3, 4]
  attributes := some [("dim", .vector (.ofData (.integer [2, 2]))),
    ("dimnames", .vector (.ofList [.null, .vector (.ofStrings [some "a", some "b"])]))]
  complete := true

theorem wellFormed_labelledMatrix : (Value.vector labelledMatrix).WellFormed := by
  have hplain := Value.plain_sane
  have hunique : (["dim", "dimnames"] : List String).Nodup := by decide
  have htwo : (0 : Int) ≤ (2 : Int32).toInt := by decide
  refine .intro ⟨hunique, fun x hx => ?_, fun x hx => ?_, fun x hx => ?_⟩ fun y hy => ?_
  · cases hx
  · cases hx
    refine ⟨[2, 2], none, true, rfl, fun d hd => ?_, rfl⟩
    rcases List.mem_cons.1 hd with rfl | hd
    · exact htwo
    · exact List.mem_singleton.1 hd ▸ htwo
  · cases hx
    exact ⟨[2, 2], _, _, _, rfl, rfl, .cons (.inl rfl) (.cons (.inr ⟨_, rfl, rfl⟩) .nil)⟩
  · rcases List.mem_cons.1 hy with rfl | hy
    · exact hplain.throughout_ofData fun z hz => by cases hz
    rcases List.mem_singleton.1 hy with rfl
    refine hplain.throughout_ofList fun z hz => ?_
    rcases List.mem_cons.1 hz with rfl | hz
    · exact hplain.throughout_null
    rcases List.mem_singleton.1 hz with rfl
    exact hplain.throughout_ofStrings _

section

attribute [local instance] Memory.unbounded

theorem access_wellFormed_labelledMatrix :
    (∃ r, extract ([] : Records) (.vector labelledMatrix)
        [.omitted, .given (.vector (.ofStrings [some "b"]))] .subset false = .ok r ∧
      r.WellFormed) ∧
    ∃ (y : Value) (rs : Records), (replace ([] : Records) (.vector labelledMatrix)
        [.omitted, .given (.vector (.ofStrings [some "b"]))] (.vector (.ofData (.integer [9])))
        .subset).result = .ok (y, rs) ∧ y.WellFormed := by
  have hvalue : (Value.vector (.ofData (.integer [9]))).WellFormed :=
    Value.plain_sane.throughout_ofData fun z hz => by cases hz
  obtain ⟨⟨-, hread⟩, -, hwrite⟩ := access_wellFormed ([] : Records) (.vector labelledMatrix)
    (.vector (.ofData (.integer [9])))
    [.omitted, .given (.vector (.ofStrings [some "b"]))] .subset false
    wellFormed_labelledMatrix hvalue (by
      intro s hs n hn
      rcases List.mem_cons.1 hs with rfl | hs
      · cases hn
      rcases List.mem_singleton.1 hs with rfl
      cases hn
      decide)
  exact ⟨⟨_, rfl, hread _ rfl⟩, _, _, rfl, hwrite _ _ rfl⟩

end

end LazyVectors
