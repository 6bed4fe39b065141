import LazyVectors.Proofs.Arrays
import LazyVectors.Proofs.Deletion
set_option autoImplicit false

namespace LazyVectors

namespace Named

variable {α : Type}

theorem nodup_put {xs : Named α} (h : (names xs).Nodup) (name : String) (a : α) :
    (names (put xs name a)).Nodup := by
  rw [names_put]
  split
  · exact h
  · rename_i hnew
    rw [List.nodup_append]
    refine ⟨h, by simp, fun m hm n hn heq => hnew ?_⟩
    rw [← List.mem_singleton.1 hn, ← heq]
    exact hm

theorem nodup_erase {xs : Named α} (h : (names xs).Nodup) (name : String) :
    (names (erase xs name)).Nodup :=
  h.sublist (List.eraseP_sublist.map _)

theorem lookup_eq_none {xs : Named α} {name : String} (h : name ∉ names xs) :
    xs.lookup name = none := by
  induction xs with
  | nil => rfl
  | cons x xs ih =>
    obtain ⟨n, a⟩ := x
    have hn : name ≠ n := fun heq => h (by simp [names, heq])
    have hxs : name ∉ names xs := fun hmem => h (List.mem_cons_of_mem _ hmem)
    rw [List.lookup_cons, beq_false_of_ne hn]
    exact ih hxs

theorem lookup_erase_self {xs : Named α} (h : (names xs).Nodup) (name : String) :
    (erase xs name).lookup name = none := by
  induction xs with
  | nil => rfl
  | cons x xs ih =>
    obtain ⟨n, a⟩ := x
    obtain ⟨hnot, hxs⟩ := List.nodup_cons.1 h
    by_cases hn : n = name
    · subst n
      have hhead : erase ((name, a) :: xs) name = xs := by simp [erase]
      rw [hhead]
      exact lookup_eq_none hnot
    · have htail : erase ((n, a) :: xs) name = (n, a) :: erase xs name := by
        simp [erase, hn]
      have hne : name ≠ n := fun heq => hn heq.symm
      rw [htail, List.lookup_cons, beq_false_of_ne hne]
      exact ih hxs

end Named

namespace Vec

variable {v w : Vec Value}

theorem attribute?_congr (h : w.attributes = v.attributes) (name : String) :
    w.attribute? name = v.attribute? name := by
  unfold attribute?
  rw [h]

def Unique (v : Vec Value) : Prop := (Named.names (v.attributes.getD [])).Nodup

instance (v : Vec Value) : Decidable v.Unique := inferInstanceAs (Decidable (List.Nodup _))

theorem Unique.putAttribute (h : v.Unique) {name : String} {x : Value} :
    (v.putAttribute name x).Unique := by
  change (Named.names (Attributes.put (v.attributes.getD []) name x)).Nodup
  unfold Attributes.put
  split
  · exact Named.nodup_erase h name
  · exact Named.nodup_put h name x

theorem Unique.removeAttribute (h : v.Unique) (name : String) :
    (v.removeAttribute name).Unique := by
  unfold Unique at h ⊢
  unfold Vec.removeAttribute
  cases has : v.attributes with
  | none =>
    simp only [has]
    exact List.nodup_nil
  | some as =>
    rw [has] at h
    simp only
    split
    · exact List.nodup_nil
    · exact Named.nodup_erase h name

theorem attribute?_removeAttribute_self (h : v.Unique) (name : String) :
    (v.removeAttribute name).attribute? name = none := by
  unfold Unique at h
  unfold Vec.removeAttribute
  cases has : v.attributes with
  | none => simp [attribute?, has]
  | some as =>
    rw [has] at h
    have hlookup := Named.lookup_erase_self h name
    simp only
    split
    · rfl
    · exact hlookup

theorem Unique.clearDim (h : v.Unique) : v.clearDim.Unique :=
  (h.removeAttribute "dim").removeAttribute "dimnames"

theorem attribute?_clearDim (h : v.Unique) :
    v.clearDim.attribute? "dim" = none ∧ v.clearDim.attribute? "dimnames" = none ∧
      v.clearDim.attribute? "names" = v.attribute? "names" := by
  unfold Vec.clearDim
  refine ⟨?_, attribute?_removeAttribute_self (h.removeAttribute _) _, ?_⟩
  · rw [attribute?_removeAttribute_of_ne _ (by decide), attribute?_removeAttribute_self h]
  · rw [attribute?_removeAttribute_of_ne _ (by decide),
      attribute?_removeAttribute_of_ne _ (by decide)]

/-- What may label the places along an extent: nothing, or one string for each. -/
def Labels (n : Nat) (x : Value) : Prop :=
  x = .null ∨ ∃ ns, extentNames? x = some ns ∧ ns.length = n

/-- The attributes with a meaning fit the length of the vector. -/
structure Shaped (v : Vec Value) : Prop where
  unique : v.Unique
  names : ∀ x, v.attribute? "names" = some x →
    ∃ ns, extentNames? x = some ns ∧ ns.length = v.length
  dim : ∀ x, v.attribute? "dim" = some x → ∃ ds as c, x = .vector ⟨.integer ds, as, c⟩ ∧
    (∀ d ∈ ds, 0 ≤ d.toInt) ∧ extentProduct (ds.map (·.toInt.toNat)) = some v.length
  dimnames : ∀ x, v.attribute? "dimnames" = some x → ∃ dims xs as c, v.dim? = some dims ∧
    x = .vector ⟨.list xs, as, c⟩ ∧ List.Forall₂ Labels dims xs

theorem dim?_congr (h : w.attribute? "dim" = v.attribute? "dim") : w.dim? = v.dim? := by
  unfold dim?
  rw [h]

namespace Shaped

theorem congr (hv : v.Shaped) (hattributes : w.attributes = v.attributes)
    (hlen : w.length = v.length) : w.Shaped := by
  have hattribute := attribute?_congr hattributes
  refine ⟨?_, ?_, ?_, ?_⟩
  · unfold Unique
    rw [hattributes]
    exact hv.unique
  · rw [hattribute, hlen]
    exact hv.names
  · rw [hattribute, hlen]
    exact hv.dim
  · rw [hattribute, dim?_congr (hattribute _)]
    exact hv.dimnames

theorem ofData (d : Data Value) : (Vec.ofData d).Shaped :=
  ⟨List.nodup_nil, fun _ h => (nomatch h), fun _ h => (nomatch h), fun _ h => (nomatch h)⟩

theorem attribute?_names_of_none (hv : v.Shaped) (h : v.names? = none) :
    v.attribute? "names" = none := by
  cases hx : v.attribute? "names" with
  | none => rfl
  | some x =>
    obtain ⟨ns, hns, -⟩ := hv.names x hx
    unfold names? at h
    rw [hx] at h
    unfold extentNames? at hns
    split at hns
    · cases h
    · cases hns

theorem namesFit (hv : v.Shaped) : v.NamesFit := by
  intro ns hns
  unfold names? at hns
  split at hns
  · rename_i ms as c hx
    obtain ⟨ns', hns', hlen⟩ := hv.names _ hx
    cases hns
    cases hns'
    exact hlen
  · cases hns

theorem of_noDim (hunique : w.Unique) (hdim : w.attribute? "dim" = none)
    (hdimnames : w.attribute? "dimnames" = none)
    (hnames : ∀ x, w.attribute? "names" = some x →
      ∃ ns, extentNames? x = some ns ∧ ns.length = w.length) : w.Shaped :=
  ⟨hunique, hnames, fun _ hx => (nomatch hdim.symm.trans hx),
    fun _ hx => (nomatch hdimnames.symm.trans hx)⟩

theorem of_extents {ds : List Int32} (hunique : w.Unique) (hnames : w.attribute? "names" = none)
    (hdimnames : w.attribute? "dimnames" = none)
    (hdim : w.attribute? "dim" = some (.vector (.ofData (.integer ds))))
    (hds : (ds.all fun d => decide (0 ≤ d.toInt)) = true)
    (hlen : extentProduct (ds.map (·.toInt.toNat)) = some w.length) : w.Shaped := by
  refine ⟨hunique, fun _ hx => (nomatch hnames.symm.trans hx), fun x hx => ?_,
    fun _ hx => (nomatch hdimnames.symm.trans hx)⟩
  obtain rfl := Option.some.inj (hdim.symm.trans hx)
  exact ⟨ds, _, _, rfl, fun d hd => of_decide_eq_true (List.all_eq_true.1 hds d hd), hlen⟩

theorem of_clearDim (hv : v.Shaped) (hnames : v.names? = none)
    (hattributes : w.attributes = v.clearDim.attributes) : w.Shaped := by
  obtain ⟨hdim, hdimnames, hsame⟩ := attribute?_clearDim hv.unique
  have hattribute := attribute?_congr hattributes
  refine of_noDim ?_ ((hattribute _).trans hdim) ((hattribute _).trans hdimnames) fun x hx => ?_
  · unfold Unique
    rw [hattributes]
    exact hv.unique.clearDim
  · rw [hattribute, hsame, hv.attribute?_names_of_none hnames] at hx
    cases hx

theorem of_relabelled (hv : v.Shaped) {ns : List (Option String)} (hlen : ns.length = w.length)
    (hattributes : w.attributes =
      (v.clearDim.putAttribute "names" (.vector (.ofStrings ns))).attributes) : w.Shaped := by
  obtain ⟨hdim, hdimnames, -⟩ := attribute?_clearDim hv.unique
  have hattribute := attribute?_congr hattributes
  have hput := attribute?_putAttribute v.clearDim "names"
  refine of_noDim ?_ ?_ ?_ fun x hx => ?_
  · unfold Unique
    rw [hattributes]
    exact hv.unique.clearDim.putAttribute
  · rw [hattribute, hput _ _ rfl, if_neg (by decide), hdim]
  · rw [hattribute, hput _ _ rfl, if_neg (by decide), hdimnames]
  · rw [hattribute, hput _ _ rfl, if_pos rfl] at hx
    cases hx
    exact ⟨ns, rfl, hlen⟩

theorem cast (hv : v.Shaped) {k : Kind} (h : (v.cast k).result = .ok w) : w.Shaped := by
  obtain ⟨hdata, hattributes⟩ := cast_eq_ok h
  exact hv.congr hattributes (Data.kind_length_of_cast hdata).2

theorem setNames (hv : v.Shaped) {ns : List (Option String)} (h : v.setNames ns = .ok w) :
    w.Shaped := by
  obtain ⟨hle, rfl⟩ := setNames_eq_ok.1 h
  have hput := attribute?_putAttribute v "names"
  refine ⟨hv.unique.putAttribute, fun x hx => ?_, fun x hx => ?_, fun x hx => ?_⟩
  · rw [hput _ _ rfl, if_pos rfl] at hx
    cases hx
    refine ⟨_, rfl, ?_⟩
    rw [List.length_append, List.length_replicate]
    exact Nat.add_sub_cancel' hle
  · rw [hput _ _ rfl, if_neg (by decide)] at hx
    exact hv.dim x hx
  · rw [hput _ _ rfl, if_neg (by decide)] at hx
    rw [dim?_congr (v := v) (by rw [hput _ _ rfl, if_neg (by decide)])]
    exact hv.dimnames x hx

theorem setDim (hv : v.Shaped) (hno : v.attribute? "dimnames" = none) {ds : List Nat}
    (hds : ∀ d ∈ ds, d < extentBound) (h : v.setDim ds = .ok w) :
    w.Shaped ∧ w.dim? = some ds := by
  unfold Vec.setDim at h
  split at h
  · cases h
  rename_i n hn
  split at h
  · rename_i hlen
    cases h
    have hput := attribute?_putAttribute v "dim"
    have hkept : ∀ d ∈ ds, (Int32.ofNat d).toInt = d := fun d hd =>
      Int32.toInt_ofNat_of_lt (hds d hd)
    have hback : (ds.map Int32.ofNat).map (·.toInt.toNat) = ds := by
      rw [List.map_map]
      refine (List.map_congr_left fun d hd => ?_).trans (List.map_id ds)
      exact (congrArg Int.toNat (hkept d hd)).trans (Int.toNat_natCast d)
    refine ⟨⟨hv.unique.putAttribute, fun x hx => ?_, fun x hx => ?_, fun x hx => ?_⟩, ?_⟩
    · rw [hput _ _ rfl, if_neg (by decide)] at hx
      exact hv.names x hx
    · rw [hput _ _ rfl, if_pos rfl] at hx
      cases hx
      refine ⟨_, _, _, rfl, fun e he => ?_, ?_⟩
      · obtain ⟨d, hd, rfl⟩ := List.mem_map.1 he
        rw [hkept d hd]
        exact Int.natCast_nonneg d
      · rw [hback, hn, hlen]
        rfl
    · rw [hput _ _ rfl, if_neg (by decide), hno] at hx
      cases hx
    · unfold dim?
      rw [hput _ _ rfl, if_pos rfl]
      exact congrArg some hback
  · cases h

theorem labels_of_extentLabels {k : Nat} {ds : List Nat}
    {ls : List (Option (List (Option String)))} {xs : List Value} (hlen : ls.length = ds.length)
    (h : extentLabels k ds ls = .ok xs) : List.Forall₂ Labels ds xs := by
  induction ls generalizing k ds xs with
  | nil =>
    cases h
    rw [List.length_eq_zero_iff.1 hlen.symm]
    exact .nil
  | cons l ls ih =>
    cases ds with
    | nil => cases hlen
    | cons d ds =>
      have hlen' : ls.length = ds.length := Nat.succ.inj hlen
      cases l with
      | none =>
        obtain ⟨ys, hys, rfl⟩ := map_eq_ok.1 h
        exact .cons (.inl rfl) (ih hlen' hys)
      | some ns =>
        rw [extentLabels] at h
        split at h
        · rename_i hd
          obtain ⟨ys, hys, rfl⟩ := map_eq_ok.1 h
          exact .cons (.inr ⟨ns, rfl, (Option.some.inj hd).symm⟩) (ih hlen' hys)
        · cases h

theorem setDimnames (hv : v.Shaped) {ls : List (Option (List (Option String)))}
    (h : v.setDimnames ls = .ok w) : w.Shaped := by
  unfold Vec.setDimnames at h
  split at h
  · cases h
  rename_i dims hdims
  split at h
  · cases h
  rename_i hlen
  obtain ⟨xs, hxs, h⟩ := bind_eq_ok.1 h
  cases h
  have hput := attribute?_putAttribute v "dimnames"
  refine ⟨hv.unique.putAttribute, fun x hx => ?_, fun x hx => ?_, fun x hx => ?_⟩
  · rw [hput _ _ rfl, if_neg (by decide)] at hx
    exact hv.names x hx
  · rw [hput _ _ rfl, if_neg (by decide)] at hx
    exact hv.dim x hx
  · rw [hput _ _ rfl, if_pos rfl] at hx
    cases hx
    refine ⟨dims, xs, _, _, ?_, rfl, labels_of_extentLabels (Classical.not_not.1 hlen) hxs⟩
    rw [dim?_congr (v := v) (by rw [hput _ _ rfl, if_neg (by decide)]), hdims]

theorem gathered {es : List Nat} {d : Data Value} (hes : ∀ n ∈ es, n < extentBound)
    (h : Gathered es d w) : w.Shaped := by
  cases h with
  | plain => exact ofData d
  | labelled hnames => exact (ofData d).setNames hnames
  | array hds hdim => exact ((ofData d).setDim rfl (fun n hn => hes n (hds n hn)) hdim).1
  | labelledArray hds hdim hdimnames =>
    exact ((ofData d).setDim rfl (fun n hn => hes n (hds n hn)) hdim).1.setDimnames hdimnames

theorem subset (hv : v.Shaped) {ss : List Subscript} (h : v.subset ss = .ok w) : w.Shaped := by
  rcases subset_cases h with rfl | ⟨is, hgathered⟩
  · exact hv
  · exact gathered (fun n hn => absurd hn List.not_mem_nil) hgathered

theorem store [Memory] (hv : v.Shaped) {sel : Selection} {values : Data Value}
    (h : v.store sel values = .ok w) : w.Shaped := by
  obtain ⟨room, hroom, hwritten, hattributes⟩ := store_eq_ok h
  have hlen : w.length = room.length :=
    Data.length_of_writtenTo (Data.writtenTo_of_assignRecycled hwritten)
  refine congr ?_ hattributes hlen
  split at hroom
  · obtain ⟨-, ⟨hnames, -, hroom⟩ | ⟨-, ns, -, hle, hroom⟩⟩ := grow_eq_ok hroom
    · exact hv.of_clearDim hnames hroom
    · refine hv.of_relabelled ?_ hroom
      rw [List.length_append, List.length_replicate]
      exact Nat.add_sub_cancel' hle
  · cases hroom
    exact hv

theorem assign [Memory] (hv : v.Shaped) {sel : Selection} {value : Vec Value} {k : Kind}
    (h : (v.assign sel value k).result = .ok w) : w.Shaped := by
  obtain ⟨-, old, values, hold, -, hstore⟩ := assign_eq_ok h
  exact (hv.cast hold).store hstore

theorem delete (hv : v.Shaped) {ss : List Subscript} {mode : Mode}
    (h : v.delete ss mode = .ok w) : w.Shaped := by
  obtain ⟨p, -, hw⟩ := delete_eq_ok h
  generalize ascending (Selection.ofPosition v .extract p).targets = doomed at hw
  cases doomed with
  | nil =>
    cases hw
    exact hv
  | cons d ds =>
    obtain ⟨-, ⟨hnames, hattributes⟩ | ⟨ns, -, hle, hattributes⟩⟩ := without_eq_ok hw
    · exact hv.of_clearDim hnames hattributes
    · refine hv.of_relabelled ?_ hattributes
      rw [List.length_append, List.length_replicate]
      exact Nat.add_sub_cancel' hle

end Shaped

end Vec

end LazyVectors
