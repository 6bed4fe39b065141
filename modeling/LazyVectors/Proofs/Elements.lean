import LazyVectors.Cast
set_option autoImplicit false

namespace LazyVectors

namespace Data

theorem filterMap_congr_mem {α β : Type} {f g : α → Option β} {xs : List α}
    (h : ∀ x ∈ xs, f x = g x) : xs.filterMap f = xs.filterMap g := by
  induction xs with
  | nil => rfl
  | cons x xs ih =>
    rw [List.filterMap_cons, List.filterMap_cons, h x List.mem_cons_self,
      ih fun y hy => h y (List.mem_cons_of_mem _ hy)]

theorem getElem?_overwrite_of_notMem {α : Type} (sources : List α) (ts : List Nat) (xs : List α)
    (k t : Nat) (ht : t ∉ ts) : (overwrite sources xs k ts)[t]? = xs[t]? := by
  induction ts generalizing xs k with
  | nil => rfl
  | cons u ts ih =>
    have hu : u ≠ t := fun h => ht (by simp [h])
    have hts : t ∉ ts := fun h => ht (List.mem_cons_of_mem _ h)
    unfold overwrite
    split
    · rw [ih _ _ hts, List.getElem?_set_ne hu]
    · rfl

theorem getElem?_overwrite_last {α : Type} (sources : List α) (hs : sources ≠ []) (ts : List Nat)
    (xs : List α) (k j t : Nat) (ht : t < xs.length) (hj : ts[j]? = some t)
    (hlast : ∀ i, j < i → ts[i]? ≠ some t) :
    (overwrite sources xs k ts)[t]? = sources[(k + j) % sources.length]? := by
  induction ts generalizing xs k j with
  | nil => simp at hj
  | cons u ts ih =>
    have hk : k % sources.length < sources.length :=
      Nat.mod_lt _ (List.length_pos_iff.2 hs)
    have hsource : sources[k % sources.length]? = some sources[k % sources.length] :=
      List.getElem?_eq_getElem hk
    simp only [overwrite, hsource]
    cases j with
    | zero =>
      have hu : u = t := by simpa using hj
      subst u
      have hts : t ∉ ts := fun h => by
        obtain ⟨i, hi⟩ := List.mem_iff_getElem?.1 h
        exact hlast (i + 1) (Nat.succ_pos i) (by simpa using hi)
      rw [getElem?_overwrite_of_notMem _ _ _ _ _ hts, List.getElem?_set_self ht, Nat.add_zero,
        hsource]
    | succ j =>
      have hj' : ts[j]? = some t := by simpa using hj
      have hlast' : ∀ i, j < i → ts[i]? ≠ some t := fun i hi => by
        simpa using hlast (i + 1) (Nat.succ_lt_succ hi)
      rw [ih (xs.set u _) (k + 1) j (by simpa using ht) hj' hlast']
      congr 2
      omega

theorem pick_of_length_le {α : Type} [Element α] (xs : List α) (i : Nat) (h : xs.length ≤ i) :
    pick xs (some i) = pick xs none := by
  simp [pick, List.getElem?_eq_none h]

theorem pick_append_holes {α : Type} [Element α] (xs : List α) (n : Nat) (i : Option Nat) :
    pick (xs ++ List.replicate n Element.hole) i = pick xs i := by
  cases i with
  | none => rfl
  | some i =>
    by_cases h : i < xs.length
    · simp [pick, List.getElem?_append_left h]
    · have hi : xs.length ≤ i := Nat.le_of_not_lt h
      simp only [pick, Option.bind_some, List.getElem?_append_right hi,
        List.getElem?_eq_none hi, List.getElem?_replicate]
      split <;> rfl

def through (is js : List (Option Nat)) : List (Option Nat) :=
  js.map fun j => j.bind fun k => is[k]?.join

theorem through_single (is : List (Option Nat)) (k : Nat) :
    through is [some k] = [is[k]?.join] := rfl

/-- Gathering twice is gathering once; a hole stays one whichever selection left it. -/
theorem map_pick_map_pick {α : Type} [Element α] (xs : List α) (is js : List (Option Nat)) :
    js.map (pick (is.map (pick xs))) = (through is js).map (pick xs) := by
  rw [through, List.map_map]
  refine List.map_congr_left fun j _ => ?_
  cases j with
  | none => rfl
  | some k => cases h : is[k]? <;> simp [pick, h]

def items : Data Value → List Value
  | list xs => xs
  | _ => []

/-- How the elements of one kind are made from a list of them. -/
structure Maker {α : Type} [Element α] (make : List α → Data Value) : Prop where
  kind : ∀ xs ys, (make xs).kind = (make ys).kind
  length : ∀ xs, (make xs).length = xs.length
  select : ∀ xs is, (make xs).select is = make (is.map (pick xs))
  items : ∀ xs ys zs, (∀ z ∈ zs, z ∈ xs ∨ z ∈ ys) →
    ∀ z ∈ (make zs).items, z ∈ (make xs).items ∨ z ∈ (make ys).items

theorem Maker.logical : Maker Data.logical :=
  ⟨fun _ _ => rfl, fun _ => rfl, fun _ _ => rfl, fun _ _ _ _ _ h => nomatch h⟩

theorem Maker.integer : Maker Data.integer :=
  ⟨fun _ _ => rfl, fun _ => rfl, fun _ _ => rfl, fun _ _ _ _ _ h => nomatch h⟩

theorem Maker.double : Maker Data.double :=
  ⟨fun _ _ => rfl, fun _ => rfl, fun _ _ => rfl, fun _ _ _ _ _ h => nomatch h⟩

theorem Maker.complex : Maker Data.complex :=
  ⟨fun _ _ => rfl, fun _ => rfl, fun _ _ => rfl, fun _ _ _ _ _ h => nomatch h⟩

theorem Maker.character : Maker Data.character :=
  ⟨fun _ _ => rfl, fun _ => rfl, fun _ _ => rfl, fun _ _ _ _ _ h => nomatch h⟩

theorem Maker.list : Maker Data.list :=
  ⟨fun _ _ => rfl, fun _ => rfl, fun _ _ => rfl, fun _ _ _ h => h⟩

theorem assignElements_eq_ok {α : Type} {xs ss ys : List α} {ts : List Nat}
    (h : assignElements xs ts ss = .ok ys) :
    ys = overwrite ss xs 0 ts ∧ (ss = [] ∨ ∀ t ∈ ts, t < xs.length) := by
  unfold assignElements at h
  split at h
  · rename_i hc
    cases h
    refine ⟨rfl, ?_⟩
    simpa using hc
  · cases h

theorem assignRecycled_cases (d c : Data Value) (ts : List Nat) :
    (∃ (α : Type) (_ : Element α) (make : List α → Data Value) (xs ss : List α), Maker make ∧
      d = make xs ∧ c = make ss ∧ d.assignRecycled ts c = (assignElements xs ts ss).map make) ∨
    c.kind ≠ d.kind ∧ d.assignRecycled ts c = .error (.internal (.storage c.kind d.kind)) := by
  cases d with
  | logical xs =>
    cases c with
    | logical ss => exact .inl ⟨_, _, _, xs, ss, .logical, rfl, rfl, rfl⟩
    | _ => exact .inr ⟨nofun, rfl⟩
  | integer xs =>
    cases c with
    | integer ss => exact .inl ⟨_, _, _, xs, ss, .integer, rfl, rfl, rfl⟩
    | _ => exact .inr ⟨nofun, rfl⟩
  | double xs =>
    cases c with
    | double ss => exact .inl ⟨_, _, _, xs, ss, .double, rfl, rfl, rfl⟩
    | _ => exact .inr ⟨nofun, rfl⟩
  | complex xs =>
    cases c with
    | complex ss => exact .inl ⟨_, _, _, xs, ss, .complex, rfl, rfl, rfl⟩
    | _ => exact .inr ⟨nofun, rfl⟩
  | character xs =>
    cases c with
    | character ss => exact .inl ⟨_, _, _, xs, ss, .character, rfl, rfl, rfl⟩
    | _ => exact .inr ⟨nofun, rfl⟩
  | list xs =>
    cases c with
    | list ss => exact .inl ⟨_, _, _, xs, ss, .list, rfl, rfl, rfl⟩
    | _ => exact .inr ⟨nofun, rfl⟩

/-- `e` is `d` after the elements of `c`, of the same kind, were written to places that exist. -/
def WrittenTo (d : Data Value) (ts : List Nat) (c e : Data Value) : Prop :=
  ∃ (α : Type) (_ : Element α) (make : List α → Data Value) (xs ss : List α), Maker make ∧
    d = make xs ∧ c = make ss ∧ e = make (overwrite ss xs 0 ts) ∧
    (ss = [] ∨ ∀ t ∈ ts, t < xs.length)

theorem writtenTo_of_assignRecycled {d c e : Data Value} {ts : List Nat}
    (h : d.assignRecycled ts c = .ok e) : WrittenTo d ts c e := by
  rcases assignRecycled_cases d c ts with ⟨α, inst, make, xs, ss, hm, hd, hc, hsame⟩ | ⟨-, herror⟩
  · rw [hsame] at h
    obtain ⟨ys, hys, rfl⟩ := map_eq_ok.1 h
    obtain ⟨rfl, hts⟩ := assignElements_eq_ok hys
    exact ⟨α, inst, make, xs, ss, hm, hd, hc, rfl, hts⟩
  · rw [herror] at h
    cases h

theorem length_of_writtenTo {d c e : Data Value} {ts : List Nat} (h : WrittenTo d ts c e) :
    e.length = d.length := by
  obtain ⟨α, inst, make, xs, ss, hm, rfl, rfl, rfl, -⟩ := h
  rw [hm.length, hm.length, length_overwrite]

theorem select_of_length_le (d : Data Value) (i : Nat) (h : d.length ≤ i) :
    d.select [some i] = d.select [none] := by
  cases d <;> simp [select, mapEach, pick_of_length_le _ _ h]

theorem select_select (d : Data Value) (is js : List (Option Nat)) :
    (d.select is).select js = d.select (through is js) := by
  cases d <;> exact congrArg _ (map_pick_map_pick _ is js)

theorem map_pick_range {α : Type} [Element α] (xs : List α) :
    ((List.range xs.length).map some).map (pick xs) = xs := by
  refine List.ext_getElem (by simp) fun i hi _ => ?_
  have hi' : i < xs.length := by simpa using hi
  simp [pick, List.getElem?_eq_getElem hi']

theorem select_range (d : Data Value) : d.select ((List.range d.length).map some) = d := by
  cases d <;> exact congrArg _ (map_pick_range _)

/-- There is room for vectors of a kind and a length. -/
def HasRoom [Memory] (k : Kind) (n : Nat) : Prop := n ≤ maxLength ∧ Memory.grants k n = true

theorem extendTo_of_hasRoom [Memory] {d : Data Value} {n : Nat} (h : HasRoom d.kind n) :
    d.extendTo n = .ok (d.mapEach fun xs => xs ++ List.replicate (n - xs.length) Element.hole) := by
  simp [extendTo, Nat.not_lt.2 h.1, h.2]

theorem extendTo_eq_ok [Memory] {d e : Data Value} {n : Nat} (h : d.extendTo n = .ok e) :
    n ≤ maxLength ∧
      e = d.mapEach fun xs => xs ++ List.replicate (n - xs.length) Element.hole := by
  unfold extendTo at h
  split at h
  · cases h
  · split at h
    · cases h
    · cases h
      exact ⟨by omega, rfl⟩

theorem length_extendTo [Memory] {d e : Data Value} {n : Nat} (h : d.extendTo n = .ok e) :
    e.length = max d.length n := by
  rw [(extendTo_eq_ok h).2]
  cases d <;> simp [mapEach, length] <;> omega

theorem select_extendTo [Memory] {d e : Data Value} {n : Nat} (h : d.extendTo n = .ok e)
    (is : List (Option Nat)) : e.select is = d.select is := by
  rw [(extendTo_eq_ok h).2]
  cases d <;> simp [select, mapEach, pick_append_holes]

theorem kind_extendTo [Memory] {d e : Data Value} {n : Nat} (h : d.extendTo n = .ok e) :
    e.kind = d.kind := by
  rw [(extendTo_eq_ok h).2, kind_mapEach]

/-- What the elements are after values, used over and over, were written to targets in turn: a
target holds the source of the last write to it, any other element is what it was, and new
places that nothing was written to are holes. -/
structure Overwritten (old : Data Value) (targets : List Nat) (values new : Data Value) : Prop where
  kind : new.kind = old.kind
  length : new.length = max old.length ((targets.map (· + 1)).max?.getD 0)
  last : ∀ k t, targets[k]? = some t → (∀ j, k < j → targets[j]? ≠ some t) →
    0 < values.length ∧ new.select [some t] = values.select [some (k % values.length)]
  kept : ∀ i, i < old.length → i ∉ targets → new.select [some i] = old.select [some i]
  filled : ∀ i, old.length ≤ i → i < new.length → i ∉ targets →
    new.select [some i] = old.select [none]

/-- Growing to hold the targets comes first; it adds holes only. -/
theorem overwritten_of_writtenTo {d longer c e : Data Value} {ts : List Nat}
    (hkind : longer.kind = d.kind)
    (hlen : longer.length = max d.length ((ts.map (· + 1)).max?.getD 0))
    (hsel : ∀ is, longer.select is = d.select is) (hc : ts ≠ [] → 0 < c.length)
    (h : WrittenTo longer ts c e) : Overwritten d ts c e := by
  obtain ⟨α, inst, make, xs, ss, hm, rfl, rfl, rfl, hts⟩ := h
  have hkeep : ∀ i, i ∉ ts → (make (overwrite ss xs 0 ts)).select [some i] = d.select [some i] := by
    intro i hi
    rw [← hsel, hm.select, hm.select]
    simp [pick, getElem?_overwrite_of_notMem ss ts xs 0 i hi]
  refine ⟨?_, ?_, ?_, fun i _ hi => hkeep i hi, ?_⟩
  · rw [hm.kind _ xs, hkind]
  · rw [hm.length, length_overwrite, ← hm.length, hlen]
  · intro k t hk hlast
    have hss : 0 < ss.length := by
      have hne : ts ≠ [] := by rintro rfl; simp at hk
      simpa [hm.length] using hc hne
    have hne : ss ≠ [] := List.length_pos_iff.1 hss
    have ht : t < xs.length := by
      rcases hts with h | h
      · exact absurd h hne
      · exact h t (List.mem_of_getElem? hk)
    refine ⟨by rw [hm.length]; exact hss, ?_⟩
    rw [hm.select, hm.select, hm.length]
    simp [pick, getElem?_overwrite_last ss hne ts xs 0 k t ht hk hlast]
  · intro i hi _ hnot
    rw [hkeep i hnot, select_of_length_le _ _ hi]

theorem elements_of_atomic (d : Data Value) (h : d.kind ≠ .list) :
    (Vec.ofData d).elements =
      (List.range d.length).map fun i => .vector (Vec.ofData (d.select [some i])) := by
  have helem : ∀ i ∈ List.range d.length, (Vec.ofData d).element? i =
      some (.vector (Vec.ofData (d.select [some i]))) := by
    intro i hi
    have hi' := List.mem_range.1 hi
    cases d with
    | list xs => exact absurd rfl h
    | _ => simp only [Vec.element?, Vec.ofData, if_pos hi']
  unfold Vec.elements
  change (List.range d.length).filterMap _ = _
  rw [filterMap_congr_mem helem, List.filterMap_eq_map']

theorem kind_length_of_castAtomic {d e : Data Value} {k : Kind} (hd : d.kind ≠ .list)
    (h : (d.castAtomic k).result = .ok e) : e.kind = k ∧ e.length = d.length := by
  unfold castAtomic at h
  split at h
  · rename_i hk
    cases h
    exact ⟨hk, rfl⟩
  · cases k with
    | logical => cases h; refine ⟨rfl, ?_⟩; cases d <;> simp_all [length, toLogical, kind]
    | integer => cases h; refine ⟨rfl, ?_⟩; cases d <;> simp_all [length, toInteger, kind]
    | double => cases h; refine ⟨rfl, ?_⟩; cases d <;> simp_all [length, toDouble, kind]
    | complex => cases h; refine ⟨rfl, ?_⟩; cases d <;> simp_all [length, toComplex, toDouble, kind]
    | character => cases h; refine ⟨rfl, ?_⟩; cases d <;> simp_all [length, toText, kind]
    | list => cases h; refine ⟨rfl, ?_⟩; simp [length, elements_of_atomic d hd]
    | _ => cases h

theorem kind_length_of_append? {d e f : Data Value} (h : d.append? e = some f) :
    f.kind = d.kind ∧ f.length = d.length + e.length := by
  cases d <;> cases e <;> cases h <;> simp [kind, length]

theorem exists_append? {d e : Data Value} (h : d.kind = e.kind) : ∃ f, d.append? e = some f := by
  cases d <;> cases e <;> first | exact ⟨_, rfl⟩ | cases h

theorem kind_length_of_castItem {x : Value} {e : Data Value} {k : Kind}
    (h : (castItem k x).result = .ok e) : e.kind = k ∧ e.length = 1 := by
  cases x with
  | vector v =>
    rw [castItem] at h
    split at h
    · rename_i hv
      have hlist : v.data.kind ≠ .list := by
        intro hk
        have := hv.2
        rw [show v.kind = .list from hk] at this
        cases this
      obtain ⟨hkind, hlen⟩ := kind_length_of_castAtomic hlist h
      exact ⟨hkind, hlen.trans hv.1⟩
    · cases h
  | _ => cases h

theorem kind_length_of_castItems {k : Kind} {xs : List Value} {done e : Data Value}
    (h : (castItems k done xs).result = .ok e) :
    e.kind = done.kind ∧ e.length = done.length + xs.length := by
  induction xs generalizing done with
  | nil => cases h; exact ⟨rfl, rfl⟩
  | cons x xs ih =>
    rw [castItems, Noted.result_bind] at h
    obtain ⟨d, hd, h⟩ := bind_eq_ok.1 h
    have hitem := kind_length_of_castItem hd
    split at h
    · rename_i more hmore
      have happ := kind_length_of_append? hmore
      obtain ⟨hkind, hlen⟩ := ih h
      refine ⟨hkind.trans happ.1, ?_⟩
      rw [hlen, happ.2, hitem.2, List.length_cons]
      omega
    · cases h

theorem kind_length_of_holes? {k : Kind} {n : Nat} {d : Data Value} (h : holes? k n = some d) :
    d.kind = k ∧ d.length = n := by
  cases k <;> cases h <;> simp [kind, length]

theorem kind_length_of_cast {d e : Data Value} {k : Kind} (h : (d.cast k).result = .ok e) :
    e.kind = k ∧ e.length = d.length := by
  cases d with
  | list xs =>
    rw [cast] at h
    split at h
    · rename_i hk
      cases h
      exact ⟨hk.symm, rfl⟩
    · split at h
      · rename_i done hdone
        obtain ⟨hkind, hlen⟩ := kind_length_of_castItems h
        obtain ⟨hk, h0⟩ := kind_length_of_holes? hdone
        exact ⟨hkind.trans hk, by rw [hlen, h0, Nat.zero_add]; rfl⟩
      · cases h
  | logical xs => exact kind_length_of_castAtomic (by simp [kind]) h
  | integer xs => exact kind_length_of_castAtomic (by simp [kind]) h
  | double xs => exact kind_length_of_castAtomic (by simp [kind]) h
  | complex xs => exact kind_length_of_castAtomic (by simp [kind]) h
  | character xs => exact kind_length_of_castAtomic (by simp [kind]) h

theorem cast_self (d : Data Value) : d.cast d.kind = .ok d := by
  cases d <;> simp [cast, castAtomic, kind]

end Data

theorem Vec.elements_of_atomic {v : Vec Value} (h : v.kind.isAtomic) : v.elements =
    (List.range v.length).map fun i => .vector (Vec.ofData (v.data.select [some i])) := by
  refine Data.elements_of_atomic v.data fun hk => ?_
  rw [show v.kind = .list from hk] at h
  cases h

theorem Vec.cast_eq_ok {v w : Vec Value} {k : Kind} (h : (v.cast k).result = .ok w) :
    (v.data.cast k).result = .ok w.data ∧ w.attributes = v.attributes := by
  unfold Vec.cast at h
  split at h
  · rename_i hk
    cases h
    refine ⟨?_, rfl⟩
    rw [← hk, show v.kind = v.data.kind from rfl, Data.cast_self]
    rfl
  · rw [Noted.result_bind] at h
    obtain ⟨d, hd, h⟩ := bind_eq_ok.1 h
    cases h
    exact ⟨hd, rfl⟩

end LazyVectors
