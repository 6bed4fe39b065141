import LazyVectors.Proofs.GrownAttributes
import LazyVectors.Proofs.Subsets
set_option autoImplicit false

namespace LazyVectors

variable {ω : Type} [Foreign ω]

def Selection.spared (n : Nat) (ts : List Nat) : List (Option Nat) :=
  ((List.range n).filter fun i => !ts.contains i).map some

theorem Selection.spared_congr {n : Nat} {ts us : List Nat} (h : ∀ i, i ∈ ts ↔ i ∈ us) :
    spared n ts = spared n us := by
  unfold spared
  congr 1
  refine List.filter_congr fun i _ => ?_
  have hcontains : ts.contains i = us.contains i := by
    rw [Bool.eq_iff_iff, List.contains_iff_mem, List.contains_iff_mem, h]
  rw [hcontains]

theorem Selection.spared_nil (n : Nat) : spared n [] = (List.range n).map some :=
  congrArg (List.map some) (List.filter_eq_self.2 fun _ _ => rfl)

namespace Data

theorem map_dropPlaces {α β : Type} (f : α → β) (i : Nat) (ps : List Nat) (xs : List α) :
    (dropPlaces i ps xs).map f = dropPlaces i ps (xs.map f) := by
  induction xs generalizing i ps with
  | nil => cases ps <;> rfl
  | cons x xs ih =>
    cases ps with
    | nil => rfl
    | cons p ps =>
      rw [List.map_cons, dropPlaces, dropPlaces]
      split
      · exact ih _ _
      · rw [List.map_cons, ih]

theorem dropPlaces_range' (i n : Nat) {ps : List Nat} (hps : ps.Pairwise (· < ·))
    (hi : ∀ p ∈ ps, i ≤ p) :
    dropPlaces i ps (List.range' i n) = (List.range' i n).filter fun j => !ps.contains j := by
  -- ascending places: only the first of them can be the number that comes next
  induction n generalizing i ps with
  | zero => cases ps <;> rfl
  | succ n ih =>
    cases ps with
    | nil =>
      rw [List.range'_succ, dropPlaces]
      · exact (List.filter_eq_self.2 fun _ _ => rfl).symm
      · exact List.cons_ne_nil _ _
    | cons p ps =>
      obtain ⟨hp, hps'⟩ := List.pairwise_cons.1 hps
      rw [List.range'_succ, dropPlaces]
      split
      · -- the first place goes, and no later one is the same
        rename_i hpi
        subst hpi
        rw [List.filter_cons_of_neg (by simp), ih (p + 1) hps' hp]
        refine List.filter_congr fun j hj => ?_
        have hne : j ≠ p := by
          have := (List.mem_range'_1.1 hj).1
          omega
        simp [hne]
      · rename_i hpi
        have hle : ∀ q ∈ p :: ps, i + 1 ≤ q := by
          intro q hq
          have hfirst := hi p List.mem_cons_self
          rcases List.mem_cons.1 hq with rfl | hq
          · omega
          · have := hp q hq
            omega
        have hstays : (p :: ps).contains i = false := by
          rw [← Bool.not_eq_true, List.contains_iff_mem]
          intro hmem
          exact Nat.not_succ_le_self i (hle i hmem)
        rw [List.filter_cons_of_pos (by rw [hstays]; rfl), ih (i + 1) hps hle]

theorem dropPlaces_eq {α : Type} [Element α] (xs : List α) {ps : List Nat}
    (hps : ps.Pairwise (· < ·)) :
    dropPlaces 0 ps xs = (Selection.spared xs.length ps).map (pick xs) := by
  calc dropPlaces 0 ps xs
      = dropPlaces 0 ps (((List.range xs.length).map some).map (pick xs)) := by
        rw [map_pick_range]
    _ = ((dropPlaces 0 ps (List.range' 0 xs.length)).map some).map (pick xs) := by
        rw [map_dropPlaces, map_dropPlaces, List.range_eq_range']
    _ = (Selection.spared xs.length ps).map (pick xs) := by
        rw [dropPlaces_range' 0 _ hps fun p _ => Nat.zero_le p, ← List.range_eq_range']
        rfl

theorem removeIndices_eq (d : Data Value) {ps : List Nat} (hps : ps.Pairwise (· < ·)) :
    d.removeIndices ps = d.select (Selection.spared d.length ps) := by
  cases d <;> exact congrArg _ (dropPlaces_eq _ hps)

end Data

namespace Vec

variable {v w : Vec Value} {ts : List Nat}

theorem data_without (h : v.without (ascending ts) = .ok w) :
    w.data = v.data.select (Selection.spared v.length ts) := by
  rw [← Selection.spared_congr fun i => mem_ascending i ts]
  have hsorted := pairwise_ascending ts
  cases hts : ascending ts with
  | nil =>
    rw [hts] at h
    cases h
    rw [Selection.spared_nil]
    exact (Data.select_range v.data).symm
  | cons t rest =>
    rw [hts] at h hsorted
    rw [(without_eq_ok h).1]
    exact v.data.removeIndices_eq hsorted

theorem names?_without (hv : v.NamesFit) (h : v.without (ascending ts) = .ok w) :
    w.names? = v.names?.map fun ns => (Selection.spared v.length ts).map (Data.pick ns) := by
  have hlen : w.length = (Selection.spared v.length (ascending ts)).length := by
    rw [Selection.spared_congr fun i => mem_ascending i ts]
    exact (congrArg Data.length (data_without h)).trans (Data.length_select _ _)
  rw [← Selection.spared_congr fun i => mem_ascending i ts]
  have hsorted := pairwise_ascending ts
  cases hts : ascending ts with
  | nil =>
    rw [hts] at h
    cases h
    rw [Selection.spared_nil]
    cases hns : v.names? with
    | none => rfl
    | some ns =>
      rw [Option.map_some, ← hv ns hns, Data.map_pick_range]
  | cons t rest =>
    rw [hts] at h hsorted hlen
    obtain ⟨-, ⟨hnone, hattributes⟩ | ⟨ns, hns, -, hattributes⟩⟩ := without_eq_ok h
    · rw [names?_congr hattributes, names?_clearDim, hnone]
      rfl
    · have hdropped := Data.dropPlaces_eq ns hsorted
      rw [hv ns hns] at hdropped
      have hfits : w.length - (Data.dropPlaces 0 (t :: rest) ns).length = 0 := by
        rw [hdropped, List.length_map, hlen, Nat.sub_self]
      rw [names?_congr hattributes, names?_putNames, hfits, List.replicate_zero, List.append_nil,
        hdropped, hns]
      rfl

/-- A list that loses elements is no array any more. -/
theorem attributes_without (hv : v.Shaped) (hts : ts ≠ [])
    (h : v.without (ascending ts) = .ok w) : w.attribute? "dim" = none ∧
      w.attribute? "dimnames" = none ∧ w.otherAttributes = v.otherAttributes := by
  obtain ⟨t, rest, hcons⟩ : ∃ t rest, ascending ts = t :: rest := by
    refine List.exists_cons_of_ne_nil fun hnil => ?_
    obtain ⟨t, ht⟩ := List.exists_mem_of_ne_nil ts hts
    have hmem := (mem_ascending t ts).2 ht
    rw [hnil] at hmem
    cases hmem
  rw [hcons] at h
  obtain ⟨hdim, hdimnames, -⟩ := attribute?_clearDim hv.unique
  obtain ⟨-, ⟨-, hattributes⟩ | ⟨ns, -, -, hattributes⟩⟩ := without_eq_ok h
  · have hattribute := attribute?_congr hattributes
    exact ⟨(hattribute _).trans hdim, (hattribute _).trans hdimnames,
      (otherAttributes_congr hattributes).trans (otherAttributes_clearDim v)⟩
  · have hattribute := fun name => (attribute?_congr hattributes name).trans
      (attribute?_putAttribute _ _ name _ rfl)
    refine ⟨?_, ?_, ?_⟩
    · rw [hattribute, if_neg (by decide), hdim]
    · rw [hattribute, if_neg (by decide), hdimnames]
    · rw [otherAttributes_congr hattributes, otherAttributes_putAttribute _ rfl (by decide),
        otherAttributes_clearDim]

end Vec

/-- A subscript whose numbers exclude the given places and nothing else. -/
def Subscript.Excludes (s : Subscript) (ts : List Nat) : Prop :=
  ∀ k, k ∈ s.numbers ↔ ∃ t ∈ ts, k = some (-(t : Int) - 1)

namespace Subscript

variable {x : Value} {ts : List Nat}

def negatives (ts : List Nat) : Subscript :=
  .given (.vector (.ofData (.double (ts.map fun t : Nat => .ofInt (-(t : Int) - 1)))))

theorem excludes_negatives (h : ∀ t ∈ ts, t + 1 < 2 ^ 53) : (negatives ts).Excludes ts := by
  intro k
  have hnumbers : (negatives ts).numbers = ts.map fun t : Nat => some (-(t : Int) - 1) := by
    change (ts.map fun t : Nat => Double.ofInt (-(t : Int) - 1)).map Position.ofDouble = _
    rw [List.map_map]
    refine List.map_congr_left fun t ht => Position.ofDouble_ofInt ?_
    have := h t ht
    omega
  rw [hnumbers, List.mem_map]
  simp only [eq_comm]

theorem not_mixed_of_excludes (h : (given x).Excludes ts) : ¬(given x).Mixed := by
  rintro ⟨-, hnone | ⟨k, hk, hpos⟩⟩
  · obtain ⟨t, -, ht⟩ := (h none).1 hnone
    cases ht
  · obtain ⟨t, -, ht⟩ := (h (some k)).1 hk
    have := Option.some.inj ht
    omega

theorem of_mem_numbers {k : Option Int} (h : k ∈ (given x).numbers) :
    x.kind.isPosition = true ∧ ∀ n ns,
      (given x).reads n ns = Selection.numberReads n (given x).numbers := by
  cases x with
  | vector v =>
    obtain ⟨d, as, c⟩ := v
    cases d with
    | integer ks => exact ⟨rfl, fun _ _ => rfl⟩
    | double xs => exact ⟨rfl, fun _ _ => rfl⟩
    | _ => cases h
  | _ => cases h

theorem reads_of_excludes (hts : ts ≠ []) (h : (given x).Excludes ts) (n : Nat)
    (ns : List (Option String)) : (given x).reads n ns = Selection.spared n ts := by
  obtain ⟨t, ht⟩ := List.exists_mem_of_ne_nil ts hts
  have hmem := (h _).2 ⟨t, ht, rfl⟩
  have hnegative : ((given x).numbers.any fun k => k.any (· < 0)) = true := by
    refine List.any_eq_true.2 ⟨_, hmem, ?_⟩
    simp only [Option.any_some, decide_eq_true_eq]
    omega
  rw [(of_mem_numbers hmem).2, Selection.numberReads, if_pos hnegative, Selection.spared]
  congr 1
  refine List.filter_congr fun i _ => ?_
  have hcontains : (given x).numbers.contains (some (-(i : Int) - 1)) = ts.contains i := by
    rw [Bool.eq_iff_iff, List.contains_iff_mem, List.contains_iff_mem, h]
    constructor
    · rintro ⟨u, hu, heq⟩
      have := Option.some.inj heq
      rwa [show i = u by omega]
    · exact fun hi => ⟨i, hi, rfl⟩
  rw [hcontains]

end Subscript

theorem replace_null [Memory] (rs : ω) {v : Vec Value} (hv : v.kind = .list) {s : Subscript}
    {mode : Mode} (hone : mode = .element → s.Single) :
    replace rs (.vector v) [s] .null mode = (do
      return (.vector (← v.delete [s] mode), rs)) := by
  have hplan := ReplacePlan.strategyOf_delete (s := .of (.vector v) [s] (some .null) mode) hv rfl
    (Shape.isPath_eq_false fun hmode _ => hone hmode)
  unfold replace ReplacePlan.build
  rw [hplan]
  rfl

/-- `NULL` written to a list takes away exactly the elements that the subscript reads, each once
and with its label, and leaves the others in their order. If there are any, the list is no array
afterwards and keeps all other attributes, and its elements and labels are those that the negative
numbers of their places read. -/
theorem deletion_keeps_the_rest [Memory] (rs rs' : ω) (v : Vec Value) (s : Subscript) (mode : Mode)
    (y : Value) (hv : v.Shaped) (hlist : v.kind = .list) (hone : mode = .element → s.Single)
    (h : (replace rs (.vector v) [s] .null mode).result = .ok (y, rs')) :
    ∃ (w : Vec Value) (p : Position) (ts : List Nat), y = .vector w ∧ rs' = rs ∧
      s.deleting mode = .ok p ∧ ts = (Selection.ofPosition v .extract p).targets ∧
      w.data = v.data.select (Selection.spared v.length ts) ∧
      w.names? = v.names?.map (fun ns => (Selection.spared v.length ts).map (Data.pick ns)) ∧
      (ts = [] → w = v) ∧
      (ts ≠ [] → w.attribute? "dim" = none ∧ w.attribute? "dimnames" = none ∧
        w.otherAttributes = v.otherAttributes ∧
        ∀ x drop, (Subscript.given x).Excludes ts → ∃ r : Vec Value,
          extract rs (.vector v) [.given x] .subset drop = .ok (.vector r) ∧
            r.data = w.data ∧ r.names? = w.names?) := by
  rw [replace_null rs hlist hone, Noted.result_bind] at h
  obtain ⟨w, hw, h⟩ := bind_eq_ok.1 h
  cases h
  obtain ⟨p, hp, hw⟩ := Vec.delete_eq_ok (show v.delete [s] mode = .ok w from hw)
  have hdata := Vec.data_without hw
  have hnames := Vec.names?_without hv.namesFit hw
  refine ⟨w, p, _, rfl, rfl, hp s rfl, rfl, hdata, hnames, fun hts => ?_, fun hts => ?_⟩
  · rw [hts] at hw
    cases hw
    rfl
  · obtain ⟨hdim, hdimnames, hothers⟩ := Vec.attributes_without hv hts hw
    refine ⟨hdim, hdimnames, hothers, fun x drop hx => ?_⟩
    obtain ⟨t, ht⟩ := List.exists_mem_of_ne_nil _ hts
    have hposition := (Subscript.of_mem_numbers ((hx _).2 ⟨t, ht, rfl⟩)).1
    obtain ⟨q, hq⟩ := Subscript.position_of_not_mixed hposition
      (Subscript.not_mixed_of_excludes hx)
    obtain ⟨r, hr, hrdata, hrattributes⟩ := Vec.subset_eq_reads hv.namesFit hq
      (Subscript.reads_of_excludes hts hx _ _).symm
    refine ⟨r, ?_, hrdata.trans hdata.symm, ?_⟩
    · rw [extract_subset, hr]
      rfl
    · exact (Vec.names?_of_labels hrattributes).1.trans hnames.symm

def labelledTriple : Vec Value where
  data := .list [.logical true, .null, .logical false]
  attributes := some [("names", .vector (.ofStrings [some "a", some "b", some "c"])),
    ("unit", .string "kg")]
  complete := true

theorem shaped_labelledTriple : labelledTriple.Shaped := by
  refine .of_noDim (by decide) rfl rfl fun x hx => ?_
  cases hx
  exact ⟨_, rfl, rfl⟩

section

attribute [local instance] Memory.unbounded

/-- A label asked for twice takes one member away, and one that is unknown none. -/
theorem deletion_keeps_the_rest_labelled :
    ∃ w r : Vec Value, (replace ([] : Records) (.vector labelledTriple)
        [.given (.vector (.ofStrings [some "c", some "z", some "a", some "c"]))] .null
        .subset).result = .ok (.vector w, []) ∧
      w.data = .list [.null] ∧ w.names? = some [some "b"] ∧
      w.otherAttributes = [("unit", .string "kg")] ∧
      extract ([] : Records) (.vector labelledTriple) [Subscript.negatives [2, 0, 2]] .subset true =
        .ok (.vector r) ∧ r.data = w.data ∧ r.names? = w.names? := by
  obtain ⟨w, p, ts, hw, -, hp, hts, hdata, hnames, -, hrest⟩ := deletion_keeps_the_rest
    ([] : Records) [] labelledTriple
    (.given (.vector (.ofStrings [some "c", some "z", some "a", some "c"]))) .subset _
    shaped_labelledTriple rfl (fun h => nomatch h) rfl
  cases hw
  cases hp
  obtain rfl : ts = [2, 0, 2] := hts.trans (by decide)
  obtain ⟨-, -, hothers, hnegative⟩ := hrest (by simp)
  obtain ⟨r, hr, hrdata, hrnames⟩ := hnegative _ true (Subscript.excludes_negatives (by decide))
  exact ⟨_, r, rfl, hdata, hnames, hothers, hr, hrdata, hrnames⟩

end

end LazyVectors
