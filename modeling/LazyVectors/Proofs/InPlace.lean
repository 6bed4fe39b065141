import LazyVectors.Proofs.LinearPlaces
import LazyVectors.Proofs.PathFrame
import LazyVectors.Proofs.Refusals
/-!
Writing to places that a vector has. Such a place is the same for reading and for writing,
nothing grows, and only the elements change.
-/

set_option autoImplicit false

namespace LazyVectors

variable {ω : Type} [Foreign ω]

namespace Data

theorem eq_of_pick {α : Type} [Element α] {xs ys : List α} (hlen : xs.length = ys.length)
    (h : ∀ i, i < xs.length → pick xs (some i) = pick ys (some i)) : xs = ys := by
  refine List.ext_getElem hlen fun i hi hi' => ?_
  simpa [pick, List.getElem?_eq_getElem hi, List.getElem?_eq_getElem hi'] using h i hi

/-- Elements of one kind are told apart one place at a time. -/
theorem eq_of_select {d e : Data Value} (hkind : d.kind = e.kind) (hlen : d.length = e.length)
    (h : ∀ i, i < d.length → d.select [some i] = e.select [some i]) : d = e := by
  cases d <;> cases e <;> first
    | exact congrArg _ (eq_of_pick hlen fun i hi => by simpa [select, mapEach] using h i hi)
    | cases hkind

theorem exists_last {ts : List Nat} {t : Nat} (h : t ∈ ts) :
    ∃ k : Nat, ts[k]? = some t ∧ ∀ j : Nat, k < j → ts[j]? ≠ some t := by
  induction ts with
  | nil => cases h
  | cons u ts ih =>
    by_cases hts : t ∈ ts
    · obtain ⟨k, hk, hlast⟩ := ih hts
      refine ⟨k + 1, hk, fun j hj => ?_⟩
      obtain ⟨j, rfl⟩ : ∃ i, j = i + 1 := ⟨j - 1, by omega⟩
      exact hlast j (by omega)
    · obtain rfl : t = u := by simpa [hts] using h
      refine ⟨0, rfl, fun j hj hjt => hts ?_⟩
      obtain ⟨j, rfl⟩ : ∃ i, j = i + 1 := ⟨j - 1, by omega⟩
      exact List.mem_of_getElem? hjt

variable {d d₁ d₂ a b e f g : Data Value} {ts us : List Nat}

theorem overwritten_of_assignRecycled (h : d.assignRecycled ts a = .ok e)
    (hts : ∀ t ∈ ts, t < d.length) (ha : ts ≠ [] → 0 < a.length) : d.Overwritten ts a e := by
  refine overwritten_of_writtenTo rfl ?_ (fun _ => rfl) ha (writtenTo_of_assignRecycled h)
  rw [← Selection.reach_eq_max, Selection.reach_of_lt hts]

theorem Overwritten.length_eq (h : d.Overwritten ts a e) (hts : ∀ t ∈ ts, t < d.length) :
    e.length = d.length :=
  h.length.trans ((Selection.reach_eq_max _ _).symm.trans (Selection.reach_of_lt hts))

theorem Overwritten.comm (h₁ : d.Overwritten ts a d₁) (h₂ : d.Overwritten us b d₂)
    (hf : d₁.Overwritten us b f) (hg : d₂.Overwritten ts a g) (hts : ∀ t ∈ ts, t < d.length)
    (hus : ∀ u ∈ us, u < d.length) (hdisjoint : ts.Disjoint us) : f = g := by
  have hlen₁ := h₁.length_eq hts
  have hlen₂ := h₂.length_eq hus
  have hlenf : f.length = d.length := (hf.length_eq fun u hu => hlen₁ ▸ hus u hu).trans hlen₁
  have hleng : g.length = d.length := (hg.length_eq fun t ht => hlen₂ ▸ hts t ht).trans hlen₂
  refine eq_of_select ?_ (hlenf.trans hleng.symm) fun i hi => ?_
  · rw [hf.kind, h₁.kind, hg.kind, h₂.kind]
  rw [hlenf] at hi
  have hi₁ : i < d₁.length := hlen₁.symm ▸ hi
  have hi₂ : i < d₂.length := hlen₂.symm ▸ hi
  by_cases ht : i ∈ ts
  · obtain ⟨k, hk, hlast⟩ := exists_last ht
    rw [hf.kept i hi₁ (hdisjoint ht), (h₁.last k i hk hlast).2, (hg.last k i hk hlast).2]
  · rw [hg.kept i hi₂ ht]
    by_cases hu : i ∈ us
    · obtain ⟨k, hk, hlast⟩ := exists_last hu
      rw [(hf.last k i hk hlast).2, (h₂.last k i hk hlast).2]
    · rw [hf.kept i hi₁ hu, h₁.kept i hi ht, h₂.kept i hi hu]

end Data

namespace Selection

theorem ofPosition_congr {v w : Vec Value} (hlen : w.length = v.length)
    (hattributes : w.attributes = v.attributes) (purpose : Purpose) (q : Position) :
    ofPosition w purpose q = ofPosition v purpose q := by
  unfold ofPosition
  rw [hlen, Vec.names?_congr hattributes]

end Selection

namespace Vec

variable {v w value : Vec Value} {sel : Selection} {k : Kind}

theorem assign_within_eq_ok [Memory] (hk : v.kind = k) (hsel : sel.length = v.length) :
    (v.assign sel value k).result = .ok w ↔ assignable sel value.length = .ok () ∧
      ∃ values d, (value.data.cast k).result = .ok values ∧
        v.data.assignRecycled sel.targets values = .ok d ∧
        w = ⟨d, v.attributes, v.complete && !values.hasNA⟩ := by
  have hcast : (v.cast k).result = .ok v := congrArg Noted.result (if_pos hk)
  rw [result_assign, hcast]
  constructor
  · intro h
    obtain ⟨_, hcan, h⟩ := bind_eq_ok.1 h
    obtain ⟨_, hv, h⟩ := bind_eq_ok.1 h
    cases hv
    obtain ⟨values, hvalues, h⟩ := bind_eq_ok.1 h
    rw [store_within hsel] at h
    obtain ⟨d, hd, rfl⟩ := map_eq_ok.1 h
    exact ⟨hcan, values, d, hvalues, hd, rfl⟩
  · rintro ⟨hcan, values, d, hvalues, hd, rfl⟩
    rw [hcan, hvalues]
    exact (store_within hsel values).trans (map_eq_ok.2 ⟨d, hd, rfl⟩)

theorem kind_of_assign_within [Memory] (hk : v.kind = k) (hsel : sel.length = v.length)
    (h : (v.assign sel value k).result = .ok w) : w.kind = k := by
  obtain ⟨-, values, d, -, hd, rfl⟩ := (assign_within_eq_ok hk hsel).1 h
  obtain ⟨α, inst, make, xs, ss, hm, hold, -, hnew, -⟩ := Data.writtenTo_of_assignRecycled hd
  change d.kind = k
  rw [hnew, hm.kind _ xs, ← hold]
  exact hk

/-- Assignments to different places of a vector of the right kind do not depend on their order. -/
theorem assign_comm [Memory] {a b v₁ v₂ : Vec Value} {selA selB : Selection} (hk : v.kind = k)
    (hselA : selA.length = v.length) (hselB : selB.length = v.length)
    (hA : ∀ t ∈ selA.targets, t < v.length) (hB : ∀ t ∈ selB.targets, t < v.length)
    (hdisjoint : selA.targets.Disjoint selB.targets)
    (h₁ : (v.assign selA a k).result = .ok v₁) (h₂ : (v.assign selB b k).result = .ok v₂) :
    ∃ w : Vec Value, (v₁.assign selB b k).result = .ok w ∧
      (v₂.assign selA a k).result = .ok w := by
  obtain ⟨hcanA, as, d₁, has, hd₁, rfl⟩ := (assign_within_eq_ok hk hselA).1 h₁
  obtain ⟨hcanB, bs, d₂, hbs, hd₂, rfl⟩ := (assign_within_eq_ok hk hselB).1 h₂
  obtain ⟨hkindA, hlenA⟩ := Data.kind_length_of_cast has
  obtain ⟨hkindB, hlenB⟩ := Data.kind_length_of_cast hbs
  have hposA : selA.targets ≠ [] → 0 < as.length := fun h => hlenA ▸ pos_of_assignable hcanA h
  have hposB : selB.targets ≠ [] → 0 < bs.length := fun h => hlenB ▸ pos_of_assignable hcanB h
  have hover₁ := Data.overwritten_of_assignRecycled hd₁ hA hposA
  have hover₂ := Data.overwritten_of_assignRecycled hd₂ hB hposB
  have hlen₁ : d₁.length = v.length := hover₁.length_eq hA
  have hlen₂ : d₂.length = v.length := hover₂.length_eq hB
  have hk₁ : d₁.kind = k := hover₁.kind.trans hk
  have hk₂ : d₂.kind = k := hover₂.kind.trans hk
  have hB₁ : ∀ t ∈ selB.targets, t < d₁.length := fun t ht => hlen₁ ▸ hB t ht
  have hA₂ : ∀ t ∈ selA.targets, t < d₂.length := fun t ht => hlen₂ ▸ hA t ht
  obtain ⟨d, hd⟩ := Data.assignRecycled_of_lt (hkindB.trans hk₁.symm) hB₁
  obtain ⟨e, he⟩ := Data.assignRecycled_of_lt (hkindA.trans hk₂.symm) hA₂
  obtain rfl : d = e := hover₁.comm hover₂ (Data.overwritten_of_assignRecycled hd hB₁ hposB)
    (Data.overwritten_of_assignRecycled he hA₂ hposA) hA hB hdisjoint
  refine ⟨⟨d, v.attributes, v.complete && !as.hasNA && !bs.hasNA⟩, ?_, ?_⟩
  · exact (assign_within_eq_ok (v := ⟨d₁, _, _⟩) hk₁ (hselB.trans hlen₁.symm)).2
      ⟨hcanB, bs, d, hbs, hd, rfl⟩
  · refine (assign_within_eq_ok (v := ⟨d₂, _, _⟩) hk₂ (hselA.trans hlen₂.symm)).2
      ⟨hcanA, as, d, has, he, ?_⟩
    rw [Bool.and_right_comm]

end Vec

theorem replace_of_le [Memory] (rs : ω) {v : Vec Value} {p : Subscript} {q : Position}
    {value : Value} (hq : p.position = .ok q) (hvalue : value ≠ .null)
    (hle : value.asElements.kind.rank ≤ v.kind.rank) :
    replace rs (.vector v) [p] value .subset = (do
      return (.vector (← v.assign (Selection.ofPosition v .replace q) value.asElements v.kind),
        rs)) := by
  rw [replace_subset rs (x := .vector v) p (.inl (Data.kind_isVector v.data)) hvalue,
    show (Value.vector v).kind.promote value.asElements.kind = v.kind from Kind.promote_of_le hle,
    assignSubset_eq hq hvalue]

/-- Assignments to different places that a vector has do not depend on their order. Values of no
higher kind than the vector are written to it by one and then by the other, either way with the
same elements, attributes and flag, whatever is written twice within one of them. -/
theorem disjoint_assignments_commute [Memory] (rs rs₁ rs₂ : ω) (v : Vec Value) (p q : Subscript)
    (pos pos' : Position) (purpose : Purpose) (ts us : List Nat) (a b y z : Value)
    (hp : p.position = .ok pos) (hq : q.position = .ok pos')
    (hts : (Selection.ofPosition v purpose pos).indices = ts.map some)
    (hus : (Selection.ofPosition v purpose pos').indices = us.map some)
    (hpresent : ∀ t ∈ ts ++ us, t < v.length) (hdisjoint : ts.Disjoint us)
    (ha : a ≠ .null) (hb : b ≠ .null) (hka : a.asElements.kind.rank ≤ v.kind.rank)
    (hkb : b.asElements.kind.rank ≤ v.kind.rank)
    (hy : (replace rs (.vector v) [p] a .subset).result = .ok (y, rs₁))
    (hz : (replace rs (.vector v) [q] b .subset).result = .ok (z, rs₂)) :
    ∃ w : Vec Value, (replace rs₁ y [q] b .subset).result = .ok (.vector w, rs) ∧
      (replace rs₂ z [p] a .subset).result = .ok (.vector w, rs) := by
  have htsLt : ∀ t ∈ ts, t < v.length := fun t ht => hpresent t (List.mem_append_left _ ht)
  have husLt : ∀ u ∈ us, u < v.length := fun u hu => hpresent u (List.mem_append_right _ hu)
  obtain ⟨-, htargetsP, hlenP⟩ := Selection.within_of_present hts htsLt
  obtain ⟨-, htargetsQ, hlenQ⟩ := Selection.within_of_present hus husLt
  rw [replace_of_le rs hp ha hka, Noted.result_bind] at hy
  rw [replace_of_le rs hq hb hkb, Noted.result_bind] at hz
  obtain ⟨v₁, h₁, hy⟩ := bind_eq_ok.1 hy
  obtain ⟨v₂, h₂, hz⟩ := bind_eq_ok.1 hz
  cases hy
  cases hz
  -- the other position leads to the same places of the vector that was changed
  obtain ⟨hlen₁, hattributes₁⟩ := assign_inside hlenP h₁
  obtain ⟨hlen₂, hattributes₂⟩ := assign_inside hlenQ h₂
  have hk₁ : v₁.kind = v.kind := Vec.kind_of_assign_within rfl hlenP h₁
  have hk₂ : v₂.kind = v.kind := Vec.kind_of_assign_within rfl hlenQ h₂
  obtain ⟨w, hw₁, hw₂⟩ := Vec.assign_comm rfl hlenP hlenQ (htargetsP.symm ▸ htsLt)
    (htargetsQ.symm ▸ husLt) (by rwa [htargetsP, htargetsQ]) h₁ h₂
  refine ⟨w, ?_, ?_⟩
  · rw [replace_of_le rs hq hb (hk₁.symm ▸ hkb), Noted.result_bind, hk₁,
      Selection.ofPosition_congr hlen₁ hattributes₁, hw₁]
    rfl
  · rw [replace_of_le rs hp ha (hk₂.symm ▸ hka), Noted.result_bind, hk₂,
      Selection.ofPosition_congr hlen₂ hattributes₂, hw₂]
    rfl

section

attribute [local instance] Memory.unbounded

theorem disjoint_assignments_commute_marks :
    ∃ w : Vec Value,
      (replace ([] : Records) (.vector (.ofData (.integer [8, 2, 3, 4])))
        [.given (.vector (.ofData (.logical [some false, some true])))]
        (.vector (.ofData (.logical [some true]))) .subset).result = .ok (.vector w, []) ∧
      (replace ([] : Records) (.vector (.ofData (.integer [1, 1, 3, 1])))
        [.given (.vector (.ofData (.integer [1, 1])))]
        (.vector (.ofData (.integer [7, 8]))) .subset).result = .ok (.vector w, []) := by
  exact disjoint_assignments_commute ([] : Records) [] [] (.ofData (.integer [1, 2, 3, 4])) _ _
    (.indices [some 0, some 0]) (.mask [some false, some true]) .extract [0, 0] [1, 3] _ _ _ _
    rfl rfl rfl rfl (by decide) (List.disjoint_left.2 (by decide)) (by simp) (by simp)
    (by decide) (by decide) rfl rfl

end

end LazyVectors
