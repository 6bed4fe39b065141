import LazyVectors.Proofs.Extraction
/-!
Reading what was just written: after `x[p] <- value` the subscript `p` selects the places it
wrote to, although the length and the labels it is resolved against may have changed.
-/

set_option autoImplicit false

namespace LazyVectors

variable {ω : Type} [Foreign ω]

def Position.Definite : Position → Prop
  | .indices is => none ∉ is
  | .mask bs => none ∉ bs
  | .named ls => Labelled ls
  | .everything | .nothing | .excluding _ => True

/-- No entry of a subscript is missing, and no label is empty. A number that is not one counts
as missing. -/
def Subscript.Definite : Subscript → Prop
  | .given (.vector ⟨.logical bs, _, _⟩) => none ∉ bs
  | .given (.vector ⟨.integer ks, _, _⟩) => ∀ k ∈ ks, Element.isNA k = false
  | .given (.vector ⟨.double xs, _, _⟩) => ∀ x ∈ xs, x.isNaN = false
  | .given (.vector ⟨.character ls, _, _⟩) => Labelled ls
  | .omitted | .given _ => True

theorem Position.definite_iff {q : Position} :
    q.Definite ↔ ¬q.HasMissing ∧ ∀ ls, q = .named ls → Labelled ls := by
  cases q <;> simp [Definite, HasMissing]

theorem Subscript.Definite.not_hasMissing {p : Subscript} (hp : p.Definite) : ¬p.HasMissing := by
  cases p with
  | omitted => exact id
  | given x =>
    cases x with
    | vector v =>
      obtain ⟨d, as, c⟩ := v
      cases d with
      | logical bs => exact hp
      | integer ks =>
        rintro ⟨k, hk, hmissing⟩
        exact absurd hmissing (by simp [hp k hk])
      | double xs =>
        rintro ⟨x, hx, hmissing⟩
        exact absurd hmissing (by simp [hp x hx])
      | _ => exact id
    | _ => exact id

theorem Subscript.Definite.position {p : Subscript} {q : Position} (hp : p.Definite)
    (h : p.position = .ok q) : q.Definite := by
  refine Position.definite_iff.2 ⟨?_, ?_⟩
  · rw [Subscript.hasMissing_position h]
    exact hp.not_hasMissing
  · rintro ls rfl
    obtain ⟨as, c, rfl⟩ := Subscript.position_eq_named h
    exact hp

/-- An element of a vector as it is stored. -/
inductive Entry where
  | logical (b : Option Bool)
  | integer (k : Int32)
  | double (x : Double)
  | complex (z : Cplx)
  | character (s : Option String)
  | value (x : Value)

namespace Data

def entries : Data Value → List Entry
  | logical xs => xs.map .logical
  | integer xs => xs.map .integer
  | double xs => xs.map .double
  | complex xs => xs.map .complex
  | character xs => xs.map .character
  | list xs => xs.map .value

@[simp] theorem length_entries (d : Data Value) : d.entries.length = d.length := by
  cases d <;> exact List.length_map _

theorem entries_select {d : Data Value} {is : List (Option Nat)} {k t : Nat}
    (hk : is[k]? = some (some t)) (ht : t < d.length) :
    (d.select is).entries[k]? = d.entries[t]? := by
  have hpick : ∀ {α : Type} [Element α] (xs : List α) (make : α → Entry), t < xs.length →
      ((is.map (pick xs)).map make)[k]? = (xs.map make)[t]? := by
    intro α _ xs make hlt
    simp [hk, pick, List.getElem?_eq_getElem hlt]
  cases d <;> exact hpick _ _ ht

theorem entries_of_select {d e : Data Value} {t j : Nat}
    (h : d.select [some t] = e.select [some j]) (ht : t < d.length) (hj : j < e.length) :
    d.entries[t]? = e.entries[j]? := by
  have hone : ∀ {d : Data Value} {t : Nat}, t < d.length →
      (d.select [some t]).entries[0]? = d.entries[t]? := fun ht => entries_select rfl ht
  rw [← hone ht, h, hone hj]

end Data

namespace Selection

theorem map_some_targets {s : Selection} (h : none ∉ s.indices) :
    s.targets.map some = s.indices := by
  unfold targets
  generalize s.indices = is at h
  induction is with
  | nil => rfl
  | cons i is ih =>
    cases i with
    | none => exact absurd List.mem_cons_self h
    | some i =>
      exact congrArg (some i :: ·) (ih fun hnone => h (List.mem_cons_of_mem _ hnone))

theorem mask_mark {n i : Nat} {bs : List (Option Bool)} (hbs : none ∉ bs)
    (hi : i ∈ List.range (if bs.isEmpty then 0 else max n bs.length)) :
    ∃ b, bs[i % bs.length]? = some (some b) := by
  obtain ⟨b, hb, hmark⟩ := exists_mark hi
  cases b with
  | none => exact absurd hb hbs
  | some b => exact ⟨b, hmark⟩

theorem none_notMem_indices {n : Nat} {ns : Option (List (Option String))} {q : Position}
    (hq : q.Definite) : none ∉ (resolve n ns .replace q).indices := by
  rw [none_mem_indices_iff]
  exact (Position.definite_iff.1 hq).1

/-- A mask reaches no further than itself and the vector, so it is used over the same places
again. -/
theorem maskPlaces_read_back {n m : Nat} {bs : List (Option Bool)} (hbs : none ∉ bs)
    (hm : m = reach n ((maskPlaces n .replace bs).filterMap id)) :
    maskPlaces m .extract bs = maskPlaces n .replace bs := by
  have htargets := targets_maskPlaces n bs
  have hle : m ≤ max n bs.length := by
    rw [hm, htargets]
    refine reach_le (Nat.le_max_left _ _) fun t ht => ?_
    exact List.mem_range.1 (List.mem_filter.1 ht).1
  have hge : n ≤ m := hm ▸ le_reach n _
  -- a write never reaches beyond the mask and the vector, so the same places are decided on
  have hmax : max m bs.length = max n bs.length := by omega
  unfold maskPlaces
  rw [hmax]
  refine Data.filterMap_congr_mem fun i hi => ?_
  obtain ⟨b, hb⟩ := mask_mark hbs hi
  cases b with
  | false => simp [hb]
  | true =>
    have hreached : i < m := by
      rw [hm, htargets]
      refine lt_reach n (List.mem_filter.2 ⟨?_, by simp [hb]⟩)
      split at hi
      · cases hi
      · exact hi
    simp [hb, hreached]

/-- The places that a position selects for writing are those that it selects for reading once
the vector reaches them and its labels lead to where they were written. -/
theorem indices_read_back {n m : Nat} {ns ms : Option (List (Option String))} {q : Position}
    (hq : q.Definite) (hm : m = (resolve n ns .replace q).length)
    (hlabels : ∀ ls, q = .named ls →
      ls.map (labelPlace (ms.getD [])) = (resolve n ns .replace q).indices) :
    (resolve m ms .extract q).indices = (resolve n ns .replace q).indices := by
  have hlt : ∀ t ∈ (resolve n ns .replace q).targets, t < m := fun t ht => hm ▸ lt_reach n ht
  -- only marks and labels are resolved against something that the write may have changed
  cases q with
  | everything =>
    have hmn : m = n := by
      refine hm.trans (reach_of_lt fun t ht => ?_)
      simpa [places, targets] using ht
    rw [hmn]
    rfl
  | nothing => rfl
  | indices is =>
    refine List.map_congr_left fun i hi => ?_
    cases i with
    | none => rfl
    | some i =>
      have hi' := hlt i (mem_targets.2 (List.mem_map.2 ⟨some i, hi, by simp⟩))
      simp [hi']
  | excluding es =>
    have hmn : m = n := by
      refine hm.trans (reach_of_lt fun t ht => ?_)
      have ht' : t ∈ excludeAscending (List.range n) es := by simpa [places, targets] using ht
      exact List.mem_range.1 (mem_of_mem_excludeAscending ht')
    rw [hmn]
    rfl
  | mask bs => exact maskPlaces_read_back hq hm
  | named ls =>
    rw [← hlabels ls rfl]
    exact indices_named_extract m ms ls

end Selection

namespace Vec

theorem indices_of_store [Memory] {v w : Vec Value} {q : Position} {values : Data Value}
    (hv : v.NamesFit) (hq : q.Definite)
    (h : v.store (Selection.ofPosition v .replace q) values = .ok w) :
    (Selection.ofPosition w .extract q).indices = (Selection.ofPosition v .replace q).indices := by
  have hle : v.length ≤ (Selection.ofPosition v .replace q).length := Selection.le_reach _ _
  refine Selection.indices_read_back hq ?_ ?_
  · rw [length_of_store h]
    exact Nat.max_eq_right hle
  · rintro ls rfl
    rw [Selection.indices_named_replace, ← map_labelPlace_fresh hq]
    exact List.map_congr_left fun l _ => labelPlace_of_store hv h l

end Vec

/-- `x[p]` after `x[p] <- value`: the subscript leads to the places it led to when they were
written, none of them missing, and what is read at each place is stored as what was last written
to it. -/
theorem subset_read_after_write [Memory] (rs rs' : ω) (x : Value) (p : Subscript) (value y : Value)
    (hx : x.kind.isVector ∨ x.kind = .null)
    (hnames : ∀ ns, x.labels? = some ns → ns.length = x.length)
    (hp : p.Definite) (hvalue : value ≠ .null)
    (h : (replace rs x [p] value .subset).result = .ok (y, rs')) :
    ∃ (w : Vec Value) (q : Position) (values : Data Value) (ts : List Nat),
      y = .vector w ∧ p.position = .ok q ∧
      (value.asElements.data.cast w.kind).result = .ok values ∧
      (Selection.resolve x.length x.labels? .replace q).indices = ts.map some ∧
      (Selection.ofPosition w .extract q).indices = ts.map some ∧
      ∀ drop, ∃ r : Vec Value, extract rs' y [p] .subset drop = .ok (.vector r) ∧
        r.kind = w.kind ∧ r.length = ts.length ∧
        ∀ k j t : Nat, ts[k]? = some t → ts[j]? = some t → (∀ i, j < i → ts[i]? ≠ some t) →
          ∃ entry, values.entries[j % values.length]? = some entry ∧
            r.data.entries[k]? = some entry := by
  rw [replace_subset rs p hx hvalue, Noted.result_bind] at h
  obtain ⟨w, hw, h⟩ := bind_eq_ok.1 h
  cases h
  obtain ⟨v, q, hv, hq, hassign⟩ := Value.assignSubset_eq_ok hvalue hw
  obtain ⟨hlen, hlabels, -⟩ := Value.containerOf_eq_ok hv
  have hvfit : v.NamesFit := fun ns hns => (hnames ns (hlabels ▸ hns)).trans hlen.symm
  have hdefinite := hp.position hq
  have hsel : Selection.ofPosition v .replace q =
      Selection.resolve x.length x.labels? .replace q := by
    rw [← hlen, ← hlabels]
    rfl
  obtain ⟨-, old, values, hold, hvalues, hstore⟩ := Vec.assign_eq_ok hassign
  obtain ⟨old', values', hold', hvalues', hover⟩ := Vec.overwritten_of_assign rfl hassign
  obtain rfl : values = values' := Except.ok.inj (hvalues.symm.trans hvalues')
  have hkind : w.kind = x.kind.promote value.asElements.kind :=
    hover.kind.trans (Data.kind_length_of_cast (Vec.cast_eq_ok hold').1).1
  rw [← Vec.ofPosition_of_cast hold] at hstore
  have holdfit := Vec.namesFit_of_cast hvfit hold
  -- the places written to are the places read
  have hback := Vec.indices_of_store holdfit hdefinite hstore
  rw [Vec.ofPosition_of_cast hold, hsel] at hback
  have hnone : none ∉ (Selection.resolve x.length x.labels? .replace q).indices :=
    Selection.none_notMem_indices hdefinite
  have hmap := Selection.map_some_targets hnone
  refine ⟨w, q, values, _, rfl, hq, by rw [hkind, hvalues], hmap.symm, hback.trans hmap.symm, ?_⟩
  -- what is stored at the last write to a place is there when it is read
  intro drop
  obtain ⟨r, hr, hdata⟩ := Vec.subset_eq_ok (Vec.namesFit_of_store holdfit hstore) hq
  refine ⟨r, by rw [extract_subset, hr]; rfl, ?_, ?_, fun k j t hk hj hlast => ?_⟩
  · exact (congrArg Data.kind hdata).trans (Data.kind_select _ _)
  · refine (congrArg Data.length hdata).trans ((Data.length_select _ _).trans ?_)
    rw [hback, ← hmap, List.length_map]
  · rw [hsel] at hover
    obtain ⟨hpos, hnew⟩ := hover.last j t hj hlast
    have hj' : j % values.length < values.length := Nat.mod_lt _ hpos
    have ht : t < w.data.length := by
      rw [hover.length, ← Selection.reach_eq_max]
      exact Selection.lt_reach _ (List.mem_of_getElem? hj)
    have hread : r.data.entries[k]? = w.data.entries[t]? := by
      rw [hdata, hback, ← hmap]
      exact Data.entries_select (by rw [List.getElem?_map, hk]; rfl) ht
    rw [hread, Data.entries_of_select hnew ht hj']
    exact ⟨_, List.getElem?_eq_getElem (by rwa [Data.length_entries]), List.getElem?_eq_getElem _⟩

section

attribute [local instance] Memory.unbounded

theorem subset_read_after_write_new_label :
    (replace ([] : Records) (.vector (.ofData (.logical [some true])))
      [.given (.vector (.ofStrings [some "b", some "b"]))]
      (.vector (.ofData (.integer [7, 8]))) .subset).result =
        .ok (.vector ⟨.integer [1, 8], some [("names", .vector (.ofStrings [some "", some "b"]))],
          false⟩, []) ∧
    ∃ r : Vec Value,
      extract ([] : Records) (.vector ⟨.integer [1, 8],
        some [("names", .vector (.ofStrings [some "", some "b"]))], false⟩)
        [.given (.vector (.ofStrings [some "b", some "b"]))] .subset true = .ok (.vector r) ∧
      r.data = .integer [8, 8] ∧
      r.data.entries[0]? = some (.integer 8) ∧ r.data.entries[1]? = some (.integer 8) := by
  have hp : (Subscript.given (.vector (.ofStrings [some "b", some "b"]))).Definite := by
    simp [Subscript.Definite, Labelled, Vec.ofStrings, Vec.ofData]
  refine ⟨rfl, ?_⟩
  obtain ⟨w, q, values, ts, hy, hq, hvalues, hts, -, hread⟩ :=
    subset_read_after_write ([] : Records) [] (.vector (.ofData (.logical [some true])))
      (.given (.vector (.ofStrings [some "b", some "b"]))) (.vector (.ofData (.integer [7, 8])))
      _ (.inl rfl) (fun ns hns => by cases hns) hp (by simp) rfl
  cases hy
  cases hq
  cases hvalues
  have htwice : ts = [1, 1] := by
    have hmap : ts.map some = [1, 1].map some := hts.symm
    exact (List.map_inj_right fun _ _ => Option.some.inj).1 hmap
  subst ts
  obtain ⟨r, hr, -, -, hlast⟩ := hread true
  have hend : ∀ i, 1 < i → ([1, 1] : List Nat)[i]? ≠ some 1 := by
    intro i hi
    rw [List.getElem?_eq_none (show 2 ≤ i from hi)]
    simp
  obtain ⟨first, hfirst, hr₀⟩ := hlast 0 1 1 rfl rfl hend
  obtain ⟨second, hsecond, hr₁⟩ := hlast 1 1 1 rfl rfl hend
  cases hfirst
  cases hsecond
  refine ⟨r, hr, ?_, hr₀, hr₁⟩
  cases hr
  rfl

end

end LazyVectors
