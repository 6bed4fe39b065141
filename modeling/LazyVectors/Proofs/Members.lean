import Mathlib.Data.List.Induction
import Mathlib.Data.List.InsertIdx
import LazyVectors.Proofs.Labels
import LazyVectors.Proofs.Shaped
set_option autoImplicit false

namespace LazyVectors

variable {ω : Type} [Foreign ω]

namespace Named

variable {α : Type}

theorem lookup_eq_bind (xs : Named α) (name : String) :
    xs.lookup name = (xs.findIdx? (·.1 == name)).bind fun i => (xs.map (·.2))[i]? := by
  induction xs with
  | nil => rfl
  | cons x xs ih =>
    obtain ⟨n, a⟩ := x
    rw [List.findIdx?_cons]
    by_cases hn : n = name
    · simp [hn]
    · have hne : name ≠ n := fun h => hn h.symm
      rw [List.lookup_cons, beq_false_of_ne hne, ih]
      cases h : xs.findIdx? (·.1 == name) <;> simp [hn]

theorem names_set {xs : Named α} {name : String} {i : Nat}
    (h : xs.findIdx? (·.1 == name) = some i) (a : α) :
    (xs.set i (name, a)).map (·.1) = xs.map (·.1) := by
  obtain ⟨hi, hname, -⟩ := List.findIdx?_eq_some_iff_getElem.1 h
  have hi' : i < (xs.map (·.1)).length := by simpa using hi
  have hsame : (xs.map (·.1))[i] = name := by simpa using hname
  rw [List.map_set]
  exact hsame ▸ List.set_getElem_self hi'

theorem names_erase (xs : Named α) (name : String) :
    names (erase xs name) = (names xs).erase name := by
  have hswap : (fun x : String × α => x.1 == name) = (· == name) ∘ Prod.fst := rfl
  unfold names erase
  rw [hswap, ← List.eraseP_map, List.erase_eq_eraseP']

end Named

def lastWritten (ws : List (String × Value)) (name : String) : Value :=
  (ws.reverse.lookup name).getD .null

/-- Write number `k` is the first one under a name since that name was last deleted. -/
def EntersAt (ws : List (String × Value)) (name : String) (k : Nat) : Prop :=
  ∃ before x after, ws = before ++ (name, x) :: after ∧ before.length = k ∧ x.isNull = false ∧
    (lastWritten before name).isNull = true ∧ ∀ y, (name, y) ∈ after → y.isNull = false

/-- Writes carried out one after the other, `NULL` taking a name away. -/
def dictionaryOf (ws : List (String × Value)) : Named Value :=
  ws.foldl (fun d w => Attributes.put d w.1 w.2) []

theorem lastWritten_snoc (ws : List (String × Value)) (w : String × Value) (name : String) :
    lastWritten (ws ++ [w]) name = if name = w.1 then w.2 else lastWritten ws name := by
  obtain ⟨n, x⟩ := w
  unfold lastWritten
  by_cases h : name = n
  · simp [h]
  · simp [List.lookup_cons, beq_false_of_ne h, h]

theorem dictionaryOf_snoc (ws : List (String × Value)) (w : String × Value) :
    dictionaryOf (ws ++ [w]) = Attributes.put (dictionaryOf ws) w.1 w.2 := by
  simp [dictionaryOf]

theorem nodup_dictionaryOf (ws : List (String × Value)) :
    (Named.names (dictionaryOf ws)).Nodup := by
  induction ws using List.reverseRecOn with
  | nil => exact List.nodup_nil
  | append_singleton ws w ih =>
    rw [dictionaryOf_snoc]
    unfold Attributes.put
    split
    · exact Named.nodup_erase ih _
    · exact Named.nodup_put ih _ _

theorem lookup_dictionaryOf (ws : List (String × Value)) (name : String) :
    ((dictionaryOf ws).lookup name).getD .null = lastWritten ws name := by
  induction ws using List.reverseRecOn with
  | nil => rfl
  | append_singleton ws w ih =>
    rw [dictionaryOf_snoc, lastWritten_snoc]
    unfold Attributes.put
    split
    · rename_i hnull
      have hx : w.2 = .null := by
        cases h : w.2 with
        | null => rfl
        | _ => simp [h, Value.isNull] at hnull
      by_cases hname : name = w.1
      · rw [if_pos hname, hname, Named.lookup_erase_self (nodup_dictionaryOf ws), hx]
        rfl
      · rw [if_neg hname, Named.lookup_erase_of_ne _ hname, ih]
    · rw [Named.lookup_put]
      split
      · rfl
      · exact ih

theorem mem_names_dictionaryOf {ws : List (String × Value)} {name : String} :
    name ∈ Named.names (dictionaryOf ws) ↔ (lastWritten ws name).isNull = false := by
  induction ws using List.reverseRecOn with
  | nil => simp [dictionaryOf, Named.names, lastWritten, Value.isNull]
  | append_singleton ws w ih =>
    rw [dictionaryOf_snoc, lastWritten_snoc]
    unfold Attributes.put
    split
    · rename_i hnull
      rw [Named.names_erase, (nodup_dictionaryOf ws).mem_erase_iff, ih]
      split <;> simp_all
    · rename_i hnull
      rw [Named.names_put]
      split <;> split <;> simp_all

theorem entersAt_snoc {ws : List (String × Value)} {w : String × Value} {name : String} {k : Nat} :
    EntersAt (ws ++ [w]) name k ↔
      (EntersAt ws name k ∧ (name = w.1 → w.2.isNull = false)) ∨
      (k = ws.length ∧ name = w.1 ∧ w.2.isNull = false ∧
        (lastWritten ws name).isNull = true) := by
  obtain ⟨n, x⟩ := w
  constructor
  · rintro ⟨before, y, after, hws, rfl, hy, hfresh, hkept⟩
    rcases List.eq_nil_or_concat after with rfl | ⟨after, last, rfl⟩
    · obtain ⟨rfl, hlast⟩ := List.append_inj' hws rfl
      cases hlast
      exact .inr ⟨rfl, rfl, hy, hfresh⟩
    · rw [List.concat_eq_append, ← List.cons_append, ← List.append_assoc] at hws
      obtain ⟨rfl, hlast⟩ := List.append_inj' hws rfl
      cases hlast
      refine .inl ⟨⟨before, y, after, rfl, rfl, hy, hfresh, fun z hz => hkept z ?_⟩, ?_⟩
      · simp [hz]
      · rintro rfl
        exact hkept x (by simp)
  · rintro (⟨⟨before, y, after, rfl, rfl, hy, hfresh, hkept⟩, hlast⟩ | ⟨rfl, rfl, hx, hfresh⟩)
    · refine ⟨before, y, after ++ [(n, x)], by simp, rfl, hy, hfresh, fun z hz => ?_⟩
      rcases List.mem_append.1 hz with hz | hz
      · exact hkept z hz
      · obtain ⟨rfl, rfl⟩ := Prod.mk.inj (List.mem_singleton.1 hz)
        exact hlast rfl
    · exact ⟨ws, x, [], rfl, rfl, hx, hfresh, by simp⟩

theorem EntersAt.lt {ws : List (String × Value)} {name : String} {k : Nat}
    (h : EntersAt ws name k) : k < ws.length := by
  obtain ⟨before, x, after, rfl, rfl, -⟩ := h
  simp

/-- A name is there as long as it was entered and not taken away since. -/
theorem lastWritten_iff_entersAt {ws : List (String × Value)} {name : String} :
    (lastWritten ws name).isNull = false ↔ ∃ k, EntersAt ws name k := by
  induction ws using List.reverseRecOn with
  | nil => simp [lastWritten, Value.isNull, EntersAt]
  | append_singleton ws w ih =>
    simp only [entersAt_snoc, exists_or, exists_and_right, ← ih, lastWritten_snoc]
    by_cases hname : name = w.1
    · cases h : (lastWritten ws name).isNull <;> simp [hname]
    · simp [hname]

theorem pairwise_dictionaryOf (ws : List (String × Value)) :
    (Named.names (dictionaryOf ws)).Pairwise fun a b =>
      ∀ i j, EntersAt ws a i → EntersAt ws b j → i < j := by
  induction ws using List.reverseRecOn with
  | nil => exact .nil
  | append_singleton ws w ih =>
    -- a name that was there before came in before
    have hold : ∀ {n i}, n ∈ Named.names (dictionaryOf ws) → EntersAt (ws ++ [w]) n i →
        EntersAt ws n i := by
      intro n i hn hi
      rcases entersAt_snoc.1 hi with ⟨hi, -⟩ | ⟨-, -, -, hfresh⟩
      · exact hi
      · simp [mem_names_dictionaryOf.1 hn] at hfresh
    have hkept : (Named.names (dictionaryOf ws)).Pairwise fun a b =>
        ∀ i j, EntersAt (ws ++ [w]) a i → EntersAt (ws ++ [w]) b j → i < j :=
      ih.imp_of_mem fun ha hb h i j hi hj => h i j (hold ha hi) (hold hb hj)
    rw [dictionaryOf_snoc]
    unfold Attributes.put
    split
    · rw [Named.names_erase]
      exact hkept.sublist List.erase_sublist
    · rw [Named.names_put]
      split
      · exact hkept
      · rename_i hnew
        refine List.pairwise_append.2
          ⟨hkept, List.pairwise_singleton _ _, fun a ha b hb i j hi hj => ?_⟩
        obtain rfl := List.mem_singleton.1 hb
        rcases entersAt_snoc.1 hj with ⟨hj, -⟩ | ⟨rfl, -⟩
        · exact absurd (mem_names_dictionaryOf.2 (lastWritten_iff_entersAt.2 ⟨j, hj⟩)) hnew
        · exact (hold ha hi).lt

/-- A container whose elements are those of a dictionary, under its names and in its order. The
empty dictionary may also be held by `NULL`. -/
inductive Holds (d : Named Value) : Value → Prop where
  | null (hd : d = []) : Holds d .null
  | list {v : Vec Value} (hdata : v.data = .list (d.map (·.2)))
    (hnames : v.names?.getD [] = d.map fun m => some m.1) : Holds d (.vector v)

variable {d : Named Value} {x value : Value} {name : String}

theorem labelPlace_members (d : Named Value) (hname : name ≠ "") :
    labelPlace (d.map fun m => some m.1) (some name) = d.findIdx? (·.1 == name) := by
  have hempty : name.isEmpty = false := by simpa [String.isEmpty_iff] using hname
  have hsame : ((· == some name) ∘ fun m : String × Value => some m.1) = fun m => m.1 == name := by
    funext m
    simp
  simp only [labelPlace, Option.bind_some, findName, hempty, Bool.false_eq_true, if_false,
    List.findIdx?_map, hsame]

theorem extract_field (rs : ω) {v : Vec Value} (hv : v.kind = .list) (ss : List Subscript)
    (drop : Bool) : extract rs (.vector v) ss .field drop = v.field ss := by
  have hkind : v.data.kind = .list := hv
  have hplan : ExtractPlan.strategyOf (.of (.vector v) ss none .field) = .ok .field := by
    simp [ExtractPlan.strategyOf, Shape.of, Value.kind, hkind, Kind.isVector]
  unfold extract ExtractPlan.build
  rw [hplan]
  rfl

theorem Holds.extract_field (h : Holds d x) (hname : name ≠ "") (rs : ω) (drop : Bool) :
    extract rs x [.given (.string name)] .field drop = .ok ((d.lookup name).getD .null) := by
  cases h with
  | null hd =>
    subst hd
    rfl
  | @list v hdata hnames =>
    have hfield : v.field [.given (.string name)] =
        .ok (((labelPlace (v.names?.getD []) (some name)).bind v.element?).getD .null) := rfl
    have helement : v.element? = fun i => (d.map (·.2))[i]? := by
      funext i
      simp only [Vec.element?, hdata]
    rw [LazyVectors.extract_field rs (congrArg Data.kind hdata), hfield, hnames,
      labelPlace_members d hname, helement, Named.lookup_eq_bind]

theorem Holds.labels (h : Holds d x) :
    x.length = (Named.names d).length ∧ x.labels?.getD [] = (Named.names d).map some := by
  cases h with
  | null hd =>
    subst hd
    exact ⟨rfl, rfl⟩
  | list hdata hnames =>
    refine ⟨?_, ?_⟩
    · simp [Value.length, hdata, Data.length, Named.names]
    · simpa [Value.labels?, Value.vector?, Named.names, Function.comp_def] using hnames

namespace Vec

variable {v : Vec Value} {i : Nat} {xs : List Value}

theorem result_assign_single [Memory] (hv : v.kind = .list) {sel : Selection}
    (hsel : sel.indices = [some i]) (value : Value) :
    (v.assign sel (.ofList [value]) .list).result = v.store sel (.list [value]) := by
  have htargets := Selection.targets_of_single hsel
  have hcan : assignable sel 1 = .ok () := by
    simp [assignable, Selection.hasNA, hsel, htargets]
  rw [result_assign, show (ofList [value]).length = 1 from rfl, hcan,
    show v.cast .list = .ok v from if_pos hv]
  rfl

theorem store_at_place [Memory] (hv : v.data = .list xs) (hi : i < xs.length) (value : Value) :
    ∃ w, v.store ⟨[some i], v.length, [], none⟩ (.list [value]) = .ok w ∧
      w.data = .list (xs.set i value) ∧ w.attributes = v.attributes := by
  have hgrows : Selection.growsPast ⟨[some i], v.length, [], none⟩ v.length = false := by
    simp [Selection.growsPast]
  have hwritten : v.data.assignRecycled [i] (.list [value]) = .ok (.list (xs.set i value)) := by
    simp [hv, Data.assignRecycled, Data.assignElements, Data.overwrite, hi, Except.map]
  unfold store
  rw [hgrows, show Selection.targets ⟨[some i], v.length, [], none⟩ = [i] from rfl]
  simp only [Bool.false_eq_true, if_false, bind, Except.bind, hwritten]
  exact ⟨_, rfl, rfl, rfl⟩

theorem grow_by_one [Memory] (hv : v.data = .list xs) (hfit : v.paddedNames.length = xs.length)
    (hroom : Data.HasRoom .list (xs.length + 1)) (name : String) :
    ∃ g, v.grow ⟨[some v.length], v.length + 1, [(v.length, some name)], none⟩ = .ok g ∧
      g.data = .list (xs ++ [.null]) ∧ g.names? = some (v.paddedNames ++ [some name]) := by
  have hlen : v.length = xs.length := congrArg Data.length hv
  have hlonger : v.clearDim.data.extendTo (v.length + 1) = .ok (.list (xs ++ [.null])) := by
    rw [data_clearDim, hv, hlen, Data.extendTo_of_hasRoom (d := .list xs) hroom]
    simp [Data.mapEach, Element.hole]
  have hnames : placeNames (resizeTo (v.length + 1) (some "") v.paddedNames)
      [(v.length, some name)] = .ok (v.paddedNames ++ [some name]) := by
    have h := placeNames_resizeTo (n := v.length + 1) v.paddedNames [some name] (by simp; omega)
    rw [hfit, ← hlen] at h
    simpa [numbered] using h
  unfold grow
  rw [hlonger]
  simp only [bind, Except.bind, List.isEmpty_cons, Bool.and_false, Bool.false_eq_true, if_false]
  rw [show v.names?.getD (List.replicate v.length (some "")) = v.paddedNames from rfl, hnames]
  refine ⟨_, setNames_eq_ok.2 ⟨?_, rfl⟩, rfl, ?_⟩
  · simp [Vec.length, Data.length, hfit]
  · rw [names?_putNames]
    simp [Vec.length, Data.length, hfit]

theorem store_behind [Memory] (hv : v.data = .list xs) (hfit : v.paddedNames.length = xs.length)
    (hroom : Data.HasRoom .list (xs.length + 1)) (name : String) (value : Value) :
    ∃ w, v.store ⟨[some v.length], v.length + 1, [(v.length, some name)], none⟩ (.list [value]) =
        .ok w ∧
      w.data = .list (xs ++ [value]) ∧ w.names? = some (v.paddedNames ++ [some name]) := by
  have hlen : v.length = xs.length := congrArg Data.length hv
  obtain ⟨g, hg, hdata, hnames⟩ := grow_by_one hv hfit hroom name
  have hgrows : Selection.growsPast ⟨[some v.length], v.length + 1, [(v.length, some name)], none⟩
      v.length = true := by
    simp [Selection.growsPast]
  have hwritten : g.data.assignRecycled [v.length] (.list [value]) =
      .ok (.list (xs ++ [value])) := by
    simp [hdata, hlen, Data.assignRecycled, Data.assignElements, Data.overwrite, Except.map]
  have htargets : Selection.targets
      ⟨[some v.length], v.length + 1, [(v.length, some name)], none⟩ = [v.length] := rfl
  unfold store
  rw [hgrows, htargets]
  simp only [if_true, bind, Except.bind, hg, hwritten]
  exact ⟨_, rfl, rfl, hnames⟩

theorem dropPlaces_singleton {α : Type} (k i : Nat) (xs : List α) :
    Data.dropPlaces k [k + i] xs = xs.eraseIdx i := by
  induction xs generalizing k i with
  | nil => rfl
  | cons x xs ih =>
    cases i with
    | zero => cases xs <;> simp [Data.dropPlaces]
    | succ i =>
      rw [Data.dropPlaces, if_neg (by omega), show k + (i + 1) = k + 1 + i by omega, ih]
      rfl

theorem delete_field (v : Vec Value) (name : String) :
    v.delete [.given (.string name)] .field =
      v.without ((labelPlace (v.names?.getD []) (some name)).toList) := by
  have hsel : Selection.ofPosition v .extract (.named [some name]) =
      ⟨[labelPlace (v.names?.getD []) (some name)], v.length, [], none⟩ :=
    Selection.foldl_addName_extract v.length (v.names?.getD []) [some name] _
  have hdoomed : ascending (Selection.targets
      ⟨[labelPlace (v.names?.getD []) (some name)], v.length, [], none⟩) =
        (labelPlace (v.names?.getD []) (some name)).toList := by
    cases labelPlace (v.names?.getD []) (some name) <;> rfl
  have hname : fieldName [.given (.string name)] = .ok name := rfl
  unfold delete without
  simp only [hname, Except.map, bind, Except.bind, hsel, hdoomed, reduceCtorEq, false_and,
    List.length_singleton, Nat.lt_irrefl, if_false]
  cases v.names? with
  | none => rfl
  | some ns =>
    simp only
    split
    · rfl
    · generalize Vec.setNames _ _ = r
      cases r <;> rfl

theorem without_place {ns : List (Option String)} (hv : v.data = .list xs)
    (hns : v.names? = some ns) (hfit : ns.length = xs.length) :
    ∃ w, v.without [i] = .ok w ∧ w.data = .list (xs.eraseIdx i) ∧
      w.names? = some (ns.eraseIdx i) := by
  have hdrop : ∀ {α : Type} (ys : List α), Data.dropPlaces 0 [i] ys = ys.eraseIdx i := fun ys => by
    simpa using dropPlaces_singleton 0 i ys
  have hdata : v.data.removeIndices [i] = .list (xs.eraseIdx i) := by
    simp only [hv, Data.removeIndices, Data.mapEach, hdrop]
  have hlen : (ns.eraseIdx i).length = (xs.eraseIdx i).length := by
    rw [List.length_eraseIdx, List.length_eraseIdx, hfit]
  unfold without
  simp only [List.isEmpty_cons, Bool.false_eq_true, if_false, hns, hdata, hdrop]
  refine ⟨_, congrArg (Except.map recomputeComplete) (setNames_eq_ok.2 ⟨?_, rfl⟩), rfl, ?_⟩
  · exact Nat.le_of_eq hlen
  · refine (names?_putNames _ _).trans ?_
    simp [Vec.length, Data.length, hlen]

end Vec

theorem ReplacePlan.strategyOf_field {s : Shape} {k : Kind} (hmode : s.mode = .field)
    (hcontainer : s.container = .null ∨ s.container = .list) (hvalue : s.value = some k)
    (hpath : s.recursive = false) : strategyOf s = .ok
      (if k ≠ .null then .field else if s.container = .null then .unchanged else .delete) := by
  by_cases hk : k = .null <;> rcases hcontainer with h | h <;>
    simp [strategyOf, hmode, h, hvalue, hpath, hk, Kind.isVector]

theorem replace_field [Memory] (rs : ω) (hx : x.kind = .null ∨ x.kind = .list) (ss : List Subscript)
    (hvalue : value ≠ .null) : replace rs x ss value .field = (do
      return (.vector (← x.assignField ss value), rs)) := by
  have hplan := ReplacePlan.strategyOf_field (s := .of x ss (some value) .field) rfl hx rfl rfl
  rw [if_pos (Value.kind_ne_null hvalue)] at hplan
  unfold replace ReplacePlan.build
  rw [hplan]
  rfl

theorem replace_field_value [Memory] (hx : x.kind = .null ∨ x.kind = .list) {v : Vec Value}
    (hv : x.asMembers = .ok v) (hlist : v.kind = .list) (hvalue : value ≠ .null) (rs : ω)
    {i : Nat} (hsel : (Selection.ofPosition v .replace (.named [some name])).indices = [some i]) :
    (replace rs x [.given (.string name)] value .field).result =
      (v.store (Selection.ofPosition v .replace (.named [some name])) (.list [value])).map
        fun w => (.vector w, rs) := by
  have hassign : (x.assignField [.given (.string name)] value).result =
      v.store (Selection.ofPosition v .replace (.named [some name])) (.list [value]) := by
    rw [← Vec.result_assign_single hlist hsel]
    unfold Value.assignField
    rw [hv]
    rfl
  rw [replace_field rs hx _ hvalue, Noted.result_bind, hassign]
  rfl

theorem replace_field_null [Memory] (rs : ω) {v : Vec Value} (hlist : v.kind = .list) :
    (replace rs (.vector v) [.given (.string name)] .null .field).result =
      (v.without (labelPlace (v.names?.getD []) (some name)).toList).map
        fun w => (.vector w, rs) := by
  have hplan := ReplacePlan.strategyOf_field
    (s := .of (.vector v) [.given (.string name)] (some .null) .field) rfl (.inr hlist) rfl rfl
  have hcontainer : (Shape.of (.vector v) [.given (.string name)] (some .null) .field).container ≠
      .null := by
    change v.kind ≠ .null
    simp [hlist]
  rw [if_neg (by simp [Value.kind]), if_neg hcontainer] at hplan
  rw [← Vec.delete_field]
  unfold replace ReplacePlan.build
  rw [hplan]
  change ((liftM (Value.vector v).asContainer >>= fun v =>
    (liftM (v.delete [.given (.string name)] .field) : Noted (Vec Value))) >>= fun w =>
      (pure (.vector w, rs) : Noted (Value × ω))).result = _
  rw [Noted.result_bind]
  change (v.delete [.given (.string name)] .field >>= fun w => Except.ok (Value.vector w, rs)) = _
  cases v.delete [.given (.string name)] .field <;> rfl

theorem Holds.write_null [Memory] (h : Holds d x) (hname : name ≠ "") (rs : ω) :
    ∃ y, (replace rs x [.given (.string name)] .null .field).result = .ok (y, rs) ∧
      Holds (Named.erase d name) y := by
  cases h with
  | null hd =>
    subst hd
    exact ⟨.null, rfl, .null rfl⟩
  | @list v hdata hnames =>
    rw [replace_field_null rs (congrArg Data.kind hdata), hnames, labelPlace_members d hname,
      Named.erase, List.eraseP_eq_eraseIdx]
    cases hplace : d.findIdx? (·.1 == name) with
    | none => exact ⟨.vector v, rfl, .list hdata hnames⟩
    | some i =>
      have hns : v.names? = some (d.map fun m => some m.1) := by
        cases hv : v.names? with
        | some ns => simpa [hv] using hnames
        | none =>
          have hd : d = [] := by simpa [hv] using hnames.symm
          simp [hd] at hplace
      obtain ⟨w, hw, hwdata, hwnames⟩ := Vec.without_place (i := i) hdata hns (by simp)
      refine ⟨.vector w, by rw [Option.toList_some, hw]; rfl, .list ?_ ?_⟩
      · rw [hwdata, List.eraseIdx_map]
      · rw [hwnames, Option.getD_some, List.eraseIdx_map]

theorem Holds.asMembers (h : Holds d x) : ∃ v : Vec Value, x.asMembers = .ok v ∧
    (x.kind = .null ∨ x.kind = .list) ∧ v.data = .list (d.map (·.2)) ∧
    v.names?.getD [] = d.map fun m => some m.1 := by
  cases h with
  | null hd =>
    subst hd
    exact ⟨.ofList [], rfl, .inl rfl, rfl, rfl⟩
  | @list v hdata hnames =>
    have hlist : v.kind = .list := congrArg Data.kind hdata
    exact ⟨v, if_pos hlist, .inr hlist, hdata, hnames⟩

theorem paddedNames_members {v : Vec Value} (hdata : v.data = .list (d.map (·.2)))
    (hnames : v.names?.getD [] = d.map fun m => some m.1) :
    v.paddedNames = d.map fun m => some m.1 := by
  unfold Vec.paddedNames
  cases hv : v.names? with
  | some ns => simpa [hv] using hnames
  | none =>
    have hd : d = [] := by simpa [hv] using hnames.symm
    simp [Vec.length, hdata, Data.length, hd]

theorem Holds.write_value [Memory] (h : Holds d x) (hname : name ≠ "") (hvalue : value ≠ .null)
    (hroom : Data.HasRoom .list (d.length + 1)) (rs : ω) :
    ∃ y, (replace rs x [.given (.string name)] value .field).result = .ok (y, rs) ∧
      Holds (Named.put d name value) y := by
  obtain ⟨v, hmembers, hkind, hdata, hnames⟩ := h.asMembers
  have hlist : v.kind = .list := congrArg Data.kind hdata
  have hlen : v.length = d.length := (congrArg Data.length hdata).trans (by simp [Data.length])
  have hplace := labelPlace_members d hname
  rw [← hnames] at hplace
  -- a name with a place is stored there, a new one behind the end
  cases hi : d.findIdx? (·.1 == name) with
  | some i =>
    have hlt : i < d.length := (List.findIdx?_eq_some_iff_getElem.1 hi).1
    have hsel := Vec.ofPosition_of_place (hplace.trans hi)
    rw [Nat.max_eq_left (show i + 1 ≤ v.length from hlen ▸ hlt)] at hsel
    obtain ⟨w, hw, hwdata, hwattributes⟩ := Vec.store_at_place hdata (by simpa using hlt) value
    have hsame := congrArg (List.map some) (Named.names_set hi value)
    rw [Named.put_of_place hi]
    refine ⟨.vector w, ?_, .list ?_ ?_⟩
    · rw [replace_field_value hkind hmembers hlist hvalue rs (by rw [hsel]), hsel, hw]
      rfl
    · rw [hwdata, List.map_set]
    · rw [Vec.names?_congr hwattributes, hnames]
      simpa [Function.comp_def] using hsame.symm
  | none =>
    have hsel := Vec.ofPosition_of_new (hplace.trans hi)
    have hpadded := paddedNames_members hdata hnames
    obtain ⟨w, hw, hwdata, hwnames⟩ := Vec.store_behind hdata (by simp [hpadded])
      (by simpa using hroom) name value
    rw [Named.put_of_new hi]
    refine ⟨.vector w, ?_, .list ?_ ?_⟩
    · rw [replace_field_value hkind hmembers hlist hvalue rs (by rw [hsel]), hsel, hw]
      rfl
    · rw [hwdata, List.map_append]
      rfl
    · rw [hwnames, hpadded, List.map_append]
      rfl

/-- Writing under a name succeeds, and the container then holds what the dictionary turns into. -/
theorem Holds.write [Memory] (h : Holds d x) (hname : name ≠ "")
    (hroom : Data.HasRoom .list (d.length + 1)) (rs : ω) (value : Value) :
    ∃ y, (replace rs x [.given (.string name)] value .field).result = .ok (y, rs) ∧
      Holds (Attributes.put d name value) y := by
  cases value with
  | null => exact h.write_null hname rs
  | _ => exact h.write_value hname (by simp) hroom rs

theorem length_put_le (d : Named Value) (name : String) (value : Value) :
    (Attributes.put d name value).length ≤ d.length + 1 := by
  unfold Attributes.put
  split
  · exact Nat.le_succ_of_le (List.length_eraseP_le)
  · have hnames := congrArg List.length (Named.names_put d name value)
    split at hnames <;> simp [Named.names] at hnames <;> omega

def writeMembers [Memory] (rs : ω) (x : Value) (ws : List (String × Value)) :
    Except Failure (Value × ω) :=
  ws.foldlM (fun s w => (replace s.2 s.1 [.given (.string w.1)] w.2 .field).result) (x, rs)

theorem Holds.writeMembers [Memory] (h : Holds d x) (rs : ω) (ws : List (String × Value))
    (hnames : ∀ w ∈ ws, w.1 ≠ "") (hroom : ∀ n ≤ d.length + ws.length, Data.HasRoom .list n) :
    ∃ y, LazyVectors.writeMembers rs x ws = .ok (y, rs) ∧
      Holds (ws.foldl (fun d w => Attributes.put d w.1 w.2) d) y := by
  induction ws generalizing d x with
  | nil => exact ⟨x, rfl, h⟩
  | cons w ws ih =>
    rw [List.length_cons] at hroom
    obtain ⟨y, hy, hheld⟩ :=
      h.write (hnames w List.mem_cons_self) (hroom _ (by omega)) rs w.2
    have hlen := length_put_le d w.1 w.2
    obtain ⟨z, hz, hlast⟩ := ih hheld (fun w hw => hnames w (List.mem_cons_of_mem _ hw))
      fun n hn => hroom n (by omega)
    refine ⟨z, ?_, hlast⟩
    unfold LazyVectors.writeMembers at hz ⊢
    rw [List.foldlM_cons, hy]
    exact hz

theorem ne_empty_of_mem_dictionaryOf {ws : List (String × Value)} (hnames : ∀ w ∈ ws, w.1 ≠ "") :
    "" ∉ Named.names (dictionaryOf ws) := by
  rw [mem_names_dictionaryOf, lastWritten_iff_entersAt]
  rintro ⟨k, before, x, after, rfl, -⟩
  exact hnames ("", x) (by simp) rfl

/-- Writing members one after the other makes an ordered dictionary of nothing, as long as memory
has room for it. All writes succeed; the names left are distinct, none of them empty, and are those
that were written and not taken away since, in the order in which they came in; and each name leads
to what was last written under it, or to `NULL`. -/
theorem field_writes_make_dictionary [Memory] (rs : ω) (x : Value) (ws : List (String × Value))
    (hx : x = .null ∨ ∃ v : Vec Value, x = .vector v ∧ v.data = .list [] ∧ v.names? = none)
    (hnames : ∀ w ∈ ws, w.1 ≠ "") (hcount : ws.length < maxLength)
    (hmemory : ∀ n ≤ ws.length, Memory.grants .list n = true) :
    ∃ (y : Value) (ns : List String), writeMembers rs x ws = .ok (y, rs) ∧ y.length = ns.length ∧
      y.labels?.getD [] = ns.map some ∧ ns.Nodup ∧ "" ∉ ns ∧
      (∀ name, name ∈ ns ↔ ∃ k, EntersAt ws name k) ∧
      (ns.Pairwise fun a b => ∀ i j, EntersAt ws a i → EntersAt ws b j → i < j) ∧
      ∀ name drop, name ≠ "" →
        extract rs y [.given (.string name)] .field drop = .ok (lastWritten ws name) := by
  have hempty : Holds [] x := by
    rcases hx with rfl | ⟨v, rfl, hdata, hlabels⟩
    · exact .null rfl
    · exact .list hdata (by rw [hlabels]; rfl)
  obtain ⟨y, hy, hheld⟩ := hempty.writeMembers rs ws hnames fun n hn => by
    rw [List.length_nil, Nat.zero_add] at hn
    exact ⟨by omega, hmemory n hn⟩
  have hheld : Holds (dictionaryOf ws) y := hheld
  refine ⟨y, Named.names (dictionaryOf ws), hy, hheld.labels.1, hheld.labels.2,
    nodup_dictionaryOf ws, ne_empty_of_mem_dictionaryOf hnames,
    fun name => mem_names_dictionaryOf.trans lastWritten_iff_entersAt, pairwise_dictionaryOf ws,
    fun name drop hname => ?_⟩
  rw [hheld.extract_field hname]
  exact congrArg Except.ok (lookup_dictionaryOf ws name)

def takenAway : List (String × Value) :=
  [("a", .logical true), ("b", .logical true), ("a", .null), ("b", .logical false),
    ("a", .symbol "s")]

section

attribute [local instance] Memory.unbounded

/-- The name that came in again stands behind the one that stayed. -/
theorem field_writes_make_dictionary_takenAway :
    (∀ w ∈ takenAway, w.1 ≠ "") ∧ takenAway.length < maxLength ∧
    writeMembers ([] : Records) .null takenAway = .ok (.vector ⟨.list [.logical false, .symbol "s"],
      some [("names", .vector (.ofStrings [some "b", some "a"]))], false⟩, []) ∧
    ∃ y, writeMembers ([] : Records) .null takenAway = .ok (y, []) ∧
      extract ([] : Records) y [.given (.string "a")] .field true = .ok (.symbol "s") := by
  have hnames : ∀ w ∈ takenAway, w.1 ≠ "" := by decide
  have hcount : takenAway.length < maxLength := by decide
  obtain ⟨y, ns, hy, -, -, -, -, -, -, hread⟩ :=
    field_writes_make_dictionary ([] : Records) .null takenAway (.inl rfl) hnames hcount
      fun _ _ => rfl
  exact ⟨hnames, hcount, rfl, y, hy, hread "a" true (by decide)⟩

end

end LazyVectors
