import LazyVectors.Proofs.Invariants
import LazyVectors.Proofs.PathFrame
set_option autoImplicit false

namespace LazyVectors

variable {ω : Type} [Foreign ω]

/-- `x[[s₁]][[s₂]]…`, each step a reading of its own. -/
def Value.stepwise (rs : ω) (drop : Bool) (x : Value) (steps : List Subscript) :
    Except Failure Value :=
  steps.foldlM (fun y s => extract rs y [s] .element drop) x

def Value.ListsBefore (rs : ω) (drop : Bool) (x : Value) (steps : List Subscript) (n : Nat) :
    Prop :=
  ∀ k, k < n → ∃ y, x.stepwise rs drop (steps.take k) = .ok y ∧ y.isList = true

theorem extract_single (rs : ω) (x : Value) {s : Subscript} (hs : s.Single) (drop : Bool) :
    extract rs x [s] .element drop = extractStep rs x s := by
  unfold extract extractStep ExtractPlan.build
  have hsuits := ExtractPlan.suits_strategyOf (.of x [s] none .element)
  cases ht : ExtractPlan.strategyOf (.of x [s] none .element) with
  | error e => rfl
  | ok t =>
    rw [ht] at hsuits
    cases t with
    | path =>
      have hpath : (Shape.of x [s] none .element).recursive = true := hsuits
      rw [Shape.of_single x hs] at hpath
      cases hpath
    | _ => cases x <;> rfl

theorem checkLevel_of_isList {x : Value} (hx : x.isList = true) (level : Nat) :
    x.checkLevel level = .ok () := if_pos hx

namespace Value

variable {rs : ω} {drop : Bool} {x y r : Value} {s : Subscript} {ss P Q : List Subscript}
  {n : Nat}

theorem stepwise_cons (s : Subscript) (ss : List Subscript) : x.stepwise rs drop (s :: ss) =
    extract rs x [s] .element drop >>= fun y => y.stepwise rs drop ss := List.foldlM_cons

theorem stepwise_append (h : x.stepwise rs drop P = .ok y) (Q : List Subscript) :
    x.stepwise rs drop (P ++ Q) = y.stepwise rs drop Q := by
  unfold stepwise at h ⊢
  rw [List.foldlM_append, h]
  rfl

theorem ListsBefore.mono {m : Nat} (h : x.ListsBefore rs drop ss n) (hm : m ≤ n) :
    x.ListsBefore rs drop ss m := fun k hk => h k (Nat.lt_of_lt_of_le hk hm)

theorem listsBefore_cons (hy : extract rs x [s] .element drop = .ok y) :
    x.ListsBefore rs drop (s :: ss) (n + 1) ↔ x.isList = true ∧ y.ListsBefore rs drop ss n := by
  have hstep : ∀ k, x.stepwise rs drop ((s :: ss).take (k + 1)) =
      y.stepwise rs drop (ss.take k) := fun k => by
    rw [List.take_succ_cons, stepwise_cons, hy]
    rfl
  constructor
  · intro h
    obtain ⟨x', hx', hlist⟩ := h 0 (Nat.succ_pos n)
    cases hx'
    refine ⟨hlist, fun k hk => ?_⟩
    rw [← hstep]
    exact h (k + 1) (Nat.succ_lt_succ hk)
  · rintro ⟨hlist, h⟩ k hk
    cases k with
    | zero => exact ⟨x, rfl, hlist⟩
    | succ k =>
      rw [hstep]
      exact h k (Nat.lt_of_succ_lt_succ hk)

theorem listsBefore_append (h : x.stepwise rs drop P = .ok y) :
    x.ListsBefore rs drop (P ++ Q) (P.length + n) ↔
      x.ListsBefore rs drop P P.length ∧ y.ListsBefore rs drop Q n := by
  have hfirst : ∀ k, k < P.length → (P ++ Q).take k = P.take k := fun k hk =>
    List.take_append_of_le_length (Nat.le_of_lt hk)
  have hsecond : ∀ k, x.stepwise rs drop ((P ++ Q).take (P.length + k)) =
      y.stepwise rs drop (Q.take k) := fun k => by
    rw [List.take_length_add_append, stepwise_append h]
  constructor
  · intro hlists
    refine ⟨fun k hk => ?_, fun k hk => ?_⟩
    · rw [← hfirst k hk]
      exact hlists k (by omega)
    · rw [← hsecond]
      exact hlists _ (by omega)
  · rintro ⟨hP, hQ⟩ k hk
    by_cases hshort : k < P.length
    · rw [hfirst k hshort]
      exact hP k hshort
    · obtain ⟨j, rfl⟩ := Nat.exists_eq_add_of_le (Nat.le_of_not_lt hshort)
      rw [hsecond]
      exact hQ j (by omega)

end Value

/-- Steps are taken one after the other, and all but the last start at a list. -/
theorem extractSteps_eq_ok {rs : ω} {x r : Value} {steps : List Subscript} (drop : Bool)
    (level : Nat) (hsteps : ∀ s ∈ steps, s.Single) : extractSteps rs level x steps = .ok r ↔
      x.stepwise rs drop steps = .ok r ∧ x.ListsBefore rs drop steps (steps.length - 1) := by
  -- a last step needs no list to start at, so two steps and more are a case of their own
  induction steps generalizing x level with
  | nil => exact ⟨fun h => ⟨h, fun k hk => by cases hk⟩, And.left⟩
  | cons s rest ih =>
    have hsingle := extract_single rs x (hsteps s List.mem_cons_self) drop
    cases rest with
    | nil =>
      rw [extractSteps, Value.stepwise_cons, hsingle]
      cases extractStep rs x s with
      | error e =>
        constructor
        · intro h
          cases h
        · rintro ⟨h, -⟩
          cases h
      | ok y =>
        constructor
        · intro h
          exact ⟨h, fun k hk => by cases hk⟩
        · exact And.left
    | cons t rest =>
      have hrest : ∀ {y : Value}, extractSteps rs (level + 1) y (t :: rest) = .ok r ↔
          y.stepwise rs drop (t :: rest) = .ok r ∧
            y.ListsBefore rs drop (t :: rest) rest.length :=
        ih (level + 1) fun u hu => hsteps u (List.mem_cons_of_mem _ hu)
      rw [extractSteps, Value.stepwise_cons, hsingle]
      constructor
      · intro h
        obtain ⟨_, hlevel, h⟩ := bind_eq_ok.1 h
        obtain ⟨y, hy, h⟩ := bind_eq_ok.1 h
        obtain ⟨hr, hlists⟩ := hrest.1 h
        exact ⟨bind_eq_ok.2 ⟨y, hy, hr⟩, (Value.listsBefore_cons (hsingle.trans hy)).2
          ⟨checkLevel_eq_ok hlevel, hlists⟩⟩
      · rintro ⟨h, hlists⟩
        obtain ⟨y, hy, hr⟩ := bind_eq_ok.1 h
        obtain ⟨hlist, hlists⟩ := (Value.listsBefore_cons (hsingle.trans hy)).1 hlists
        exact bind_eq_ok.2 ⟨(), checkLevel_of_isList hlist level,
          bind_eq_ok.2 ⟨y, hy, hrest.2 ⟨hr, hlists⟩⟩⟩

theorem extract_long (rs : ω) {v path : Vec Value} (hv : v.kind = .list)
    (hlen : 2 ≤ path.length) (drop : Bool) :
    extract rs (.vector v) [.given (.vector path)] .element drop =
      extractPath rs v (.vector path) := by
  have hkind : (Shape.of (.vector v) [.given (.vector path)] none .element).container = .list := hv
  have hstrategy : ExtractPlan.strategyOf
      (.of (.vector v) [.given (.vector path)] none .element) = .ok .path := by
    unfold ExtractPlan.strategyOf
    rw [hkind, Shape.of_path hv hlen]
    rfl
  unfold extract ExtractPlan.build
  rw [hstrategy]
  rfl

theorem extract_path (rs : ω) {v path : Vec Value} (hv : v.kind = .list)
    (hatomic : path.kind.isAtomic) (hlen : 2 ≤ path.length) (drop : Bool) :
    extract rs (.vector v) [.given (.vector path)] .element drop =
      extractSteps rs 1 (.vector v) (path.elements.map .given) := by
  have hsteps : (Value.vector path).steps = .ok (path.elements.map .given) := if_pos hatomic
  rw [extract_long rs hv hlen, extractPath, hsteps]
  rfl

theorem Data.pick_append {α : Type} [Element α] (xs ys : List α) (i : Nat) :
    pick (xs ++ ys) (some i) =
      if i < xs.length then pick xs (some i) else pick ys (some (i - xs.length)) := by
  simp only [pick, Option.bind_some, List.getElem?_append]
  split <;> rfl

theorem Data.select_append {d e f : Data Value} (h : d.append? e = some f) (i : Nat) :
    f.select [some i] =
      if i < d.length then d.select [some i] else e.select [some (i - d.length)] := by
  cases d <;> cases e <;> cases h <;> simp only [select, mapEach, length, List.map, pick_append] <;>
    split <;> simp [*]

theorem Data.kind_of_append? {d e f : Data Value} (h : d.append? e = some f) :
    d.kind = f.kind ∧ e.kind = f.kind := by
  cases d <;> cases e <;> cases h <;> exact ⟨rfl, rfl⟩

theorem Vec.elements_append {p q r : Vec Value} (hatomic : r.kind.isAtomic)
    (h : p.data.append? q.data = some r.data) : p.kind.isAtomic ∧ q.kind.isAtomic ∧
      r.elements = p.elements ++ q.elements := by
  obtain ⟨hp, hq⟩ := Data.kind_of_append? h
  have hp : p.kind.isAtomic := (congrArg Kind.isAtomic hp).trans hatomic
  have hq : q.kind.isAtomic := (congrArg Kind.isAtomic hq).trans hatomic
  refine ⟨hp, hq, ?_⟩
  have hlen : r.length = p.length + q.length := (Data.kind_length_of_append? h).2
  rw [elements_of_atomic hatomic, elements_of_atomic hp, elements_of_atomic hq, hlen,
    List.range_add, List.map_append, List.map_map]
  congr 1
  · refine List.map_congr_left fun i hi => ?_
    have hi' : i < p.data.length := List.mem_range.1 hi
    rw [Data.select_append h, if_pos hi']
  · refine List.map_congr_left fun i _ => ?_
    have hi : ¬p.length + i < p.data.length := Nat.not_lt.2 (Nat.le_add_right _ _)
    have hback : p.length + i - p.data.length = i := Nat.add_sub_cancel_left _ _
    simp only [Function.comp_apply]
    rw [Data.select_append h, if_neg hi, hback]

/-- `x[[path]]` gives a value exactly if the steps of the path, taken one at a time, lead to it and
all but the last start at a list. So two steps are two readings, and a path that is put together
from two is read by the first and then by the second, if the lists go on that long. -/
theorem path_extraction_stepwise (rs : ω) (v path : Vec Value) (drop : Bool)
    (hv : v.kind = .list) (hatomic : path.kind.isAtomic) (hlen : 2 ≤ path.length) :
    (∀ r, extract rs (.vector v) [.given (.vector path)] .element drop = .ok r ↔
      (Value.vector v).stepwise rs drop (path.elements.map .given) = .ok r ∧
        (Value.vector v).ListsBefore rs drop (path.elements.map .given) (path.length - 1)) ∧
    (∀ s t, path.elements = [s, t] →
      extract rs (.vector v) [.given (.vector path)] .element drop =
        extract rs (.vector v) [.given s] .element drop >>= fun y =>
          extract rs y [.given t] .element drop) ∧
    (∀ p q : Vec Value, 2 ≤ p.length → 2 ≤ q.length → p.data.append? q.data = some path.data →
      (Value.vector v).ListsBefore rs drop (p.elements.map .given) (p.length + 1) →
      ∀ r, extract rs (.vector v) [.given (.vector path)] .element drop = .ok r ↔
        (extract rs (.vector v) [.given (.vector p)] .element drop >>= fun y =>
          extract rs y [.given (.vector q)] .element drop) = .ok r) := by
  -- any path from any list, for the two parts of this one are read alike
  have hread : ∀ {u p : Vec Value}, u.kind = .list → p.kind.isAtomic → 2 ≤ p.length → ∀ r,
      extract rs (.vector u) [.given (.vector p)] .element drop = .ok r ↔
        (Value.vector u).stepwise rs drop (p.elements.map .given) = .ok r ∧
          (Value.vector u).ListsBefore rs drop (p.elements.map .given) (p.length - 1) := by
    intro u p hu hp hlong r
    obtain ⟨hcount, hsingle⟩ := elements_single hp
    rw [extract_path rs hu hp hlong, extractSteps_eq_ok drop 1 hsingle, List.length_map, hcount]
  refine ⟨hread hv hatomic hlen, fun s t hst => ?_, fun p q hplen hqlen happend hlists r => ?_⟩
  · have hsingle := (elements_single hatomic).2
    rw [hst] at hsingle
    rw [extract_path rs hv hatomic hlen, hst, extract_single rs _ (hsingle (.given s) (by simp))]
    change (Value.vector v).checkLevel 1 >>= _ = _
    rw [checkLevel_of_isList (Value.isList_of_kind hv)]
    change extractStep rs (.vector v) (.given s) >>= _ = _
    congr 1
    funext y
    exact (extract_single rs y (hsingle (.given t) (by simp)) drop).symm
  · obtain ⟨hp, hq, hsteps⟩ := Vec.elements_append hatomic happend
    have hpcount : (p.elements.map Subscript.given).length = p.length :=
      (List.length_map _).trans (elements_single hp).1
    have hpathlen : path.length = p.length + q.length := (Data.kind_length_of_append? happend).2
    obtain ⟨y, hy, hylist⟩ := hlists p.length (Nat.lt_succ_self _)
    rw [List.take_of_length_le (Nat.le_of_eq hpcount)] at hy
    obtain ⟨u, rfl, hu⟩ := Value.eq_vector_of_isList hylist
    have hfirst : extract rs (.vector v) [.given (.vector p)] .element drop = .ok (.vector u) :=
      (hread hv hp hplen _).2 ⟨hy, hlists.mono (by omega)⟩
    have hcut : path.length - 1 = (p.elements.map Subscript.given).length + (q.length - 1) := by
      rw [hpcount]
      omega
    rw [hread hv hatomic hlen, hsteps, List.map_append, Value.stepwise_append hy, hcut,
      Value.listsBefore_append hy, hfirst]
    change _ ↔ extract rs (.vector u) [.given (.vector q)] .element drop = .ok r
    rw [hread hu hq hqlen, hpcount, and_congr_right_iff]
    exact fun _ => and_iff_right (hlists.mono (Nat.le_succ _))

def nestedLists : Vec Value :=
  .ofList [.vector (.ofList [.vector (.ofList [.vector (.ofList [.logical true,
    .logical false])])])]

theorem path_extraction_stepwise_halves :
    extract ([] : Records) (.vector nestedLists)
      [.given (.vector (.ofData (.integer [1, 1, 1, 2])))] .element true =
      .ok (.logical false) ∧
    (extract ([] : Records) (.vector nestedLists) [.given (.vector (.ofData (.integer [1, 1])))]
        .element true
      >>= fun y => extract ([] : Records) y [.given (.vector (.ofData (.integer [1, 2])))]
        .element true) =
        .ok (.logical false) := by
  obtain ⟨hread, -, hhalves⟩ := path_extraction_stepwise ([] : Records) nestedLists
    (.ofData (.integer [1, 1, 1, 2])) true rfl rfl (by decide)
  have hlists : (Value.vector nestedLists).ListsBefore ([] : Records) true
      ((Vec.ofData (.integer [1, 1, 1, 2])).elements.map .given) 3 := by
    intro k hk
    match k, hk with
    | 0, _ | 1, _ | 2, _ => exact ⟨_, rfl, rfl⟩
  have hhalf : (Value.vector nestedLists).ListsBefore ([] : Records) true
      ((Vec.ofData (.integer [1, 1])).elements.map .given) 3 := by
    intro k hk
    match k, hk with
    | 0, _ | 1, _ | 2, _ => exact ⟨_, rfl, rfl⟩
  have hwhole := (hread (.logical false)).2 ⟨rfl, hlists⟩
  exact ⟨hwhole, (hhalves (.ofData (.integer [1, 1])) (.ofData (.integer [1, 2])) (by decide)
    (by decide) rfl hhalf _).1 hwhole⟩

end LazyVectors
