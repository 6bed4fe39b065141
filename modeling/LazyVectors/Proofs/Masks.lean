import LazyVectors.Proofs.DeletedPlaces
import LazyVectors.Proofs.LinearPlaces
set_option autoImplicit false

namespace LazyVectors

variable {ω : Type} [Foreign ω]

def marked (m : List Bool) : List Nat := (List.range m.length).filter fun i => m[i]? == some true

/-- The elements of a numeric vector are whole numbers but for their fractions. None of them is
missing or infinite. -/
inductive Data.Wholes : Data Value → List Int → Prop
  | integer {ks : List Int32} (h : ∀ k ∈ ks, Element.isNA k = false) :
    Wholes (.integer ks) (ks.map Int32.toInt)
  | double {xs : List Double} (h : ∀ x ∈ xs, x.isNaN = false ∧ x.isInfinite = false) :
    Wholes (.double xs) (xs.map Double.truncate)

/-- The numbers of the true marks from one on, in ascending order, with zeros anywhere. -/
def NumbersMarked (m : List Bool) (zs : List Int) : Prop :=
  zs.filter (· != 0) = (marked m).map fun i : Nat => (i : Int) + 1

instance (m : List Bool) (zs : List Int) : Decidable (NumbersMarked m zs) :=
  inferInstanceAs (Decidable (_ = _))

/-- The negative numbers of the false marks, each at least once, in any order and with zeros
anywhere. -/
def ExcludesUnmarked (m : List Bool) (zs : List Int) : Prop :=
  ∀ z, z ∈ zs ∧ z ≠ 0 ↔ ∃ i : Nat, m[i]? = some false ∧ z = -((i : Int) + 1)

theorem mem_marked {m : List Bool} {i : Nat} : i ∈ marked m ↔ m[i]? = some true := by
  unfold marked
  rw [List.mem_filter, List.mem_range, beq_iff_eq]
  exact ⟨And.right, fun h => ⟨(List.getElem?_eq_some_iff.1 h).1, h⟩⟩

namespace Position

theorem ofData_wholes {d : Data Value} {zs : List Int} (h : d.Wholes zs)
    (hzs : ∀ z ∈ zs, z.natAbs < 2 ^ 63) : ofData d = ofNumbers (zs.map some) := by
  cases h with
  | @integer ks h =>
    rw [ofData, List.map_map]
    refine congrArg ofNumbers (List.map_congr_left fun k hk => ?_)
    simp [ofInteger, h k hk]
  | @double xs h =>
    rw [ofData, List.map_map]
    refine congrArg ofNumbers (List.map_congr_left fun x hx => ?_)
    obtain ⟨hnan, hinfinite⟩ := h x hx
    have hlt := hzs _ (List.mem_map_of_mem hx)
    have hmin : Int64.minValue.toInt = -9223372036854775808 := rfl
    have hmax : Int64.maxValue.toInt = 9223372036854775807 := rfl
    rw [ofDouble, hnan, Double.truncateWithin, hinfinite, hmin, hmax]
    simp only [Bool.false_eq_true, if_false, Function.comp_apply, Option.some.injEq]
    omega

theorem ofNumbers_nonzero (ks : List (Option Int)) :
    ofNumbers (ks.filter (· != some 0)) = ofNumbers ks := by
  have hdrop : ∀ {α : Type} (f : Option Int → Option α), f (some 0) = none →
      (ks.filter (· != some 0)).filterMap f = ks.filterMap f := by
    intro α f hf
    rw [List.filterMap_filter]
    refine Data.filterMap_congr_mem fun k _ => ?_
    by_cases hk : k = some 0 <;> simp [hk, hf]
  have hmissing : (ks.filter (· != some 0)).contains none = ks.contains none := by
    rw [Bool.eq_iff_iff, List.contains_iff_mem, List.contains_iff_mem, List.mem_filter]
    simp
  unfold ofNumbers
  rw [hdrop wanted rfl, hdrop unwanted rfl, hmissing]

theorem ofNumbers_of_excluding {ks : List (Option Int)} (hnegative : ∃ k, some k ∈ ks ∧ k < 0)
    (hpresent : none ∉ ks) (hle : ∀ k, some k ∈ ks → k ≤ 0) :
    ofNumbers ks = .ok (.excluding (ascending (ks.filterMap unwanted))) := by
  have hunwanted := unwanted_nonempty.2 hnegative
  have hwanted : (ks.filterMap wanted).isEmpty = true := by
    rw [← Bool.not_eq_false, wanted_nonempty]
    rintro (hnone | ⟨k, hk, hpos⟩)
    · exact hpresent hnone
    · have := hle k hk
      omega
  simp [ofNumbers, hunwanted, hwanted, hpresent]

end Position

namespace Selection

def inside (n : Nat) (ts : List Nat) : Selection := ⟨ts.map some, n, [], none⟩

variable {v : Vec Value} {m : List Bool} {zs : List Int}

theorem maskPlaces_marked (m : List Bool) (purpose : Purpose) :
    maskPlaces m.length purpose (m.map some) = (marked m).map some := by
  have hrange : (if (m.map some).isEmpty then 0 else max m.length (m.map some).length) =
      m.length := by
    cases m <;> simp
  unfold maskPlaces marked
  rw [hrange, ← List.filterMap_eq_filter, List.map_filterMap]
  refine Data.filterMap_congr_mem fun i hi => ?_
  have hi := List.mem_range.1 hi
  rw [List.length_map, Nat.mod_eq_of_lt hi, List.getElem?_map, List.getElem?_eq_getElem hi]
  cases hmark : m[i] <;> simp [Option.guard, hi, hmark]

theorem lt_of_mem_marked (hlen : m.length = v.length) (o : Nat)
    (ho : some o ∈ (marked m).map some) : o < v.length := by
  obtain ⟨i, hi, hio⟩ := List.mem_map.1 ho
  rw [← Option.some.inj hio, ← hlen]
  exact (List.getElem?_eq_some_iff.1 (mem_marked.1 hi)).1

theorem ofPosition_mask (hlen : m.length = v.length) (purpose : Purpose) :
    ofPosition v purpose (.mask (m.map some)) = inside v.length (marked m) := by
  refine resolve_inside ?_ (lt_of_mem_marked hlen)
  rw [places, ← hlen, maskPlaces_marked]

theorem ofNumbers_marked (hzs : NumbersMarked m zs) :
    Position.ofNumbers (zs.map some) = .ok (if ((marked m).map some).isEmpty then .nothing
      else .indices ((marked m).map some)) := by
  have hnonzero : (zs.map some).filter (· != some 0) = (zs.filter (· != 0)).map some := by
    rw [List.filter_map]
    refine congrArg (List.map some) (List.filter_congr fun z _ => ?_)
    simp [bne]
  rw [← ofNumbers_successors, ← Position.ofNumbers_nonzero, hnonzero, hzs, List.map_map,
    List.map_map]
  rfl

theorem natAbs_le_of_marked (hzs : NumbersMarked m zs) {z : Int} (hz : z ∈ zs) :
    z.natAbs ≤ m.length := by
  unfold NumbersMarked at hzs
  by_cases hzero : z = 0
  · omega
  · have hmem : z ∈ zs.filter (· != 0) := List.mem_filter.2 ⟨hz, bne_iff_ne.2 hzero⟩
    rw [hzs] at hmem
    obtain ⟨i, hi, rfl⟩ := List.mem_map.1 hmem
    have := (List.getElem?_eq_some_iff.1 (mem_marked.1 hi)).1
    omega

theorem natAbs_le_of_unmarked (hzs : ExcludesUnmarked m zs) {z : Int} (hz : z ∈ zs) :
    z.natAbs ≤ m.length := by
  by_cases hzero : z = 0
  · omega
  · obtain ⟨i, hi, rfl⟩ := (hzs z).1 ⟨hz, hzero⟩
    have := (List.getElem?_eq_some_iff.1 hi).1
    omega

theorem filter_not_excluded (hzs : ExcludesUnmarked m zs) :
    ((List.range m.length).filter fun i : Nat => !(zs.map some).contains (some (-(i : Int) - 1))) =
      marked m := by
  refine List.filter_congr fun i hi => ?_
  have hexcluded : -(i : Int) - 1 ∈ zs ↔ m[i]? = some false := by
    constructor
    · intro hmem
      obtain ⟨j, hj, hij⟩ := (hzs _).1 ⟨hmem, by omega⟩
      rwa [show i = j by omega]
    · exact fun hfalse => ((hzs _).2 ⟨i, hfalse, by omega⟩).1
  have hi := List.mem_range.1 hi
  have hmark : m[i]? = some m[i] := List.getElem?_eq_getElem hi
  have hcontains : (zs.map some).contains (some (-(i : Int) - 1)) = !m[i] := by
    rw [Bool.eq_iff_iff, List.contains_iff_mem, List.mem_map]
    simp [hexcluded, hmark]
  rw [hcontains, hmark]
  simp

theorem ofNumbers_unmarked (hsome : false ∈ m) (hzs : ExcludesUnmarked m zs) :
    Position.ofNumbers (zs.map some) =
      .ok (.excluding (ascending ((zs.map some).filterMap Position.unwanted))) := by
  refine Position.ofNumbers_of_excluding ?_ (by simp) fun k hk => ?_
  · obtain ⟨i, hi⟩ := List.mem_iff_getElem?.1 hsome
    exact ⟨_, List.mem_map_of_mem ((hzs _).2 ⟨i, hi, rfl⟩).1, by omega⟩
  · obtain ⟨z, hz, hzk⟩ := List.mem_map.1 hk
    obtain rfl := Option.some.inj hzk
    by_cases hzero : z = 0
    · omega
    · obtain ⟨i, -, hi⟩ := (hzs z).1 ⟨hz, hzero⟩
      omega

theorem ofPosition_unmarked (hlen : m.length = v.length) (hzs : ExcludesUnmarked m zs)
    (purpose : Purpose) :
    ofPosition v purpose (.excluding (ascending ((zs.map some).filterMap Position.unwanted))) =
      inside v.length (marked m) := by
  refine resolve_inside ?_ (lt_of_mem_marked hlen)
  rw [places, excludeAscending_unwanted, ← hlen, filter_not_excluded hzs]

end Selection

/-- A subscript that is given leads to a selection of a vector for each purpose. -/
def Subscript.Selects (v : Vec Value) (x : Value) (sel : Purpose → Selection) : Prop :=
  ∃ p, (given x).position = .ok p ∧ ∀ purpose, Selection.ofPosition v purpose p = sel purpose

theorem ReplacePlan.strategyOf_subset_null {s : Shape} (hmode : s.mode = .subset)
    (hcontainer : s.container.isVector) (hlist : s.container ≠ .list)
    (hvalue : s.value = some .null) (hone : s.subscripts.length = 1)
    (hpath : s.recursive = false) : strategyOf s = .ok (.subset s.container) := by
  have hforeign : s.container ≠ .foreign := fun h => by simp [h, Kind.isVector] at hcontainer
  have hnull : s.container ≠ .null := fun h => by simp [h, Kind.isVector] at hcontainer
  have harray := Shape.isMatrix_of_one hone
  simp [strategyOf, targetKind, hmode, hcontainer, hlist, hvalue, hone, hpath, hforeign, hnull,
    harray]

theorem replace_subset_null [Memory] (rs : ω) {v : Vec Value} (hv : v.kind ≠ .list)
    (p : Subscript) : replace rs (.vector v) [p] .null .subset = (do
      return (.vector (← (Value.vector v).assignSubset [p] .null v.kind), rs)) := by
  have hplan := ReplacePlan.strategyOf_subset_null (s := .of (.vector v) [p] (some .null) .subset)
    rfl (Data.kind_isVector v.data) hv rfl rfl rfl
  unfold replace ReplacePlan.build
  rw [hplan]
  rfl

namespace Subscript.Selects

variable {v : Vec Value} {x y : Value} {sel : Purpose → Selection}

theorem ofSubscripts (h : Selects v x sel) (purpose : Purpose) :
    Selection.ofSubscripts v [.given x] purpose = .ok (sel purpose) := by
  obtain ⟨p, hp, hsel⟩ := h
  rw [Selection.ofSubscripts_single, hp, ← hsel]
  rfl

theorem extract_eq (hx : Selects v x sel) (hy : Selects v y sel) (rs : ω) (drop : Bool) :
    extract rs (.vector v) [.given x] .subset drop =
      extract rs (.vector v) [.given y] .subset drop := by
  obtain ⟨p, hp, hpsel⟩ := hx
  obtain ⟨q, hq, hqsel⟩ := hy
  rw [extract_subset, extract_subset, Vec.subset_given hp, Vec.subset_given hq, hpsel, hqsel]

theorem assignSubset_eq [Memory] (hx : Selects v x sel) (hy : Selects v y sel) (value : Value)
    (k : Kind) : (Value.vector v).assignSubset [.given x] value k =
      (Value.vector v).assignSubset [.given y] value k := by
  obtain ⟨p, hp, hpsel⟩ := hx
  obtain ⟨q, hq, hqsel⟩ := hy
  simp only [Value.assignSubset, Value.containerOf, Noted.lift_ok_bind, hp, hq, hpsel, hqsel]

theorem delete_eq (hx : Selects v x sel) (hy : Selects v y sel) :
    v.delete [.given x] .subset = v.delete [.given y] .subset := by
  obtain ⟨p, hp, hpsel⟩ := hx
  obtain ⟨q, hq, hqsel⟩ := hy
  simp only [Vec.delete, hp, hq, bind, Except.bind, hpsel, hqsel, List.length_singleton]

theorem replace_eq [Memory] (hx : Selects v x sel) (hy : Selects v y sel) (rs : ω) (value : Value) :
    replace rs (.vector v) [.given x] value .subset =
      replace rs (.vector v) [.given y] value .subset := by
  by_cases hvalue : value = .null
  · subst hvalue
    by_cases hlist : v.kind = .list
    · have hdelete : ∀ s, replace rs (.vector v) [s] .null .subset = (do
          return (.vector (← v.delete [s] .subset), rs)) :=
        fun s => replace_null rs hlist fun h => nomatch h
      rw [hdelete, hdelete, hx.delete_eq hy]
    · rw [replace_subset_null rs hlist, replace_subset_null rs hlist, hx.assignSubset_eq hy]
  · have hvector := Data.kind_isVector v.data
    rw [replace_subset rs (x := .vector v) _ (.inl hvector) hvalue,
      replace_subset rs (x := .vector v) _ (.inl hvector) hvalue, hx.assignSubset_eq hy]

end Subscript.Selects

/-- A mask that leaves something out, the numbers of its true marks in order and the negative
numbers of the others in any order and number, as integers or as other numbers that are cut off to
whole ones, with zeros anywhere: all three resolve to the same selection, whether to read or to
write, and so they read the same and write the same, errors and warnings included. -/
theorem mask_agrees_with_numbers [Memory] (rs : ω) (v b p q : Vec Value) (m : List Bool)
    (zs ws : List Int) (hlen : m.length = v.length) (hshort : v.length < 2 ^ 31)
    (hsome : false ∈ m) (hb : b.data = .logical (m.map some)) (hp : p.data.Wholes zs)
    (hzs : NumbersMarked m zs) (hq : q.data.Wholes ws) (hws : ExcludesUnmarked m ws) :
    (∀ purpose, ∃ sel : Selection, sel.indices = (marked m).map some ∧ ∀ x ∈ [b, p, q],
      Selection.ofSubscripts v [.given (.vector x)] purpose = .ok sel) ∧
    ∀ x ∈ [b, p, q], ∀ y ∈ [b, p, q],
      (∀ drop, extract rs (.vector v) [.given (.vector x)] .subset drop =
        extract rs (.vector v) [.given (.vector y)] .subset drop) ∧
      ∀ value, replace rs (.vector v) [.given (.vector x)] value .subset =
        replace rs (.vector v) [.given (.vector y)] value .subset := by
  have hselects : ∀ x ∈ [b, p, q], Subscript.Selects v (.vector x) fun _ =>
      Selection.inside v.length (marked m) := by
    have hsmall : m.length < 2 ^ 63 := by omega
    intro x hx
    simp only [List.mem_cons, List.not_mem_nil, or_false] at hx
    rcases hx with rfl | rfl | rfl
    · exact ⟨_, congrArg Position.ofData hb, Selection.ofPosition_mask hlen⟩
    · have hposition := Position.ofData_wholes hp fun z hz =>
        Nat.lt_of_le_of_lt (Selection.natAbs_le_of_marked hzs hz) hsmall
      exact ⟨_, hposition.trans (Selection.ofNumbers_marked hzs),
        Selection.ofPosition_indices (Selection.lt_of_mem_marked hlen)⟩
    · have hposition := Position.ofData_wholes hq fun w hw =>
        Nat.lt_of_le_of_lt (Selection.natAbs_le_of_unmarked hws hw) hsmall
      exact ⟨_, hposition.trans (Selection.ofNumbers_unmarked hsome hws),
        Selection.ofPosition_unmarked hlen hws⟩
  refine ⟨fun purpose => ⟨_, rfl, fun x hx => (hselects x hx).ofSubscripts purpose⟩,
    fun x hx y hy => ⟨(hselects x hx).extract_eq (hselects y hy) rs,
      (hselects x hx).replace_eq (hselects y hy) rs⟩⟩

section

attribute [local instance] Memory.unbounded

/-- Numbers with fractions, one of them below one, and a negative number that comes twice. -/
theorem mask_agrees_with_numbers_fractions :
    (replace ([] : Records) (.vector labelledTriple) [.given (.vector (.ofData
        (.double [⟨0x3FF8000000000000⟩, ⟨0x3FD0000000000000⟩, ⟨0x400F333333333333⟩])))] .null
      .subset).result = .ok (.vector ⟨.list [.null],
        some [("names", .vector (.ofStrings [some "b"])), ("unit", .string "kg")], true⟩, []) ∧
    extract ([] : Records) (.vector labelledTriple)
      [.given (.vector (.ofData (.integer [-2, 0, -2])))]
      .subset true = .ok (.vector ⟨.list [.logical true, .logical false],
        some [("names", .vector (.ofStrings [some "a", some "c"]))], true⟩) := by
  have hpositive : (Vec.ofData (.double [⟨0x3FF8000000000000⟩, ⟨0x3FD0000000000000⟩,
      ⟨0x400F333333333333⟩])).data.Wholes [1, 0, 3] := .double (by decide)
  have hnegative : (Vec.ofData (.integer [-2, 0, -2])).data.Wholes [-2, 0, -2] :=
    .integer (List.forall_mem_cons.2 ⟨by decide, List.forall_mem_cons.2
      ⟨by decide, List.forall_mem_singleton.2 (by decide)⟩⟩)
  have hexcluded : ExcludesUnmarked [true, false, true] [-2, 0, -2] := by
    intro w
    constructor
    · rintro ⟨hw, hzero⟩
      exact ⟨1, rfl, by simp at hw; omega⟩
    · rintro ⟨i, hi, rfl⟩
      match i, hi with
      | 1, _ => simp
      | n + 3, hi => cases hi
  obtain ⟨-, hsame⟩ := mask_agrees_with_numbers ([] : Records) labelledTriple
    (.ofData (.logical [some true, some false, some true])) _ _ [true, false, true] [1, 0, 3]
    [-2, 0, -2] rfl (by decide) (by decide) rfl hpositive (by decide) hnegative hexcluded
  refine ⟨?_, ?_⟩
  · exact (congrArg Noted.result ((hsame _ (.tail _ (.head _)) _ (.head _)).2 .null)).trans rfl
  · exact ((hsame _ (.tail _ (.tail _ (.head _))) _ (.head _)).1 true).trans rfl

end

end LazyVectors
