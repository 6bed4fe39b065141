import LazyVectors.ClassMethod
import LazyVectors.Proofs.CompleteFlag
set_option autoImplicit false

namespace LazyVectors

variable {ω : Type} [Foreign ω]

/-- A change of the elements of a vector in place. -/
inductive Edit where
  | extend (n : Nat)
  | remove (places : List Nat)
  | write (targets : List Nat) (source : Data Value)

namespace Edit

def apply [Memory] (d : Data Value) : Edit → Except Failure (Data Value)
  | extend n => d.extendTo n
  | remove places => .ok (d.removeIndices places)
  | write targets source => d.assignRecycled targets source

def items : Edit → List Value
  | extend _ | remove _ => []
  | write _ source => source.items

theorem mem_items_of_apply [Memory] {d c : Data Value} {e : Edit} {y : Value}
    (h : e.apply d = .ok c) (hy : y ∈ c.items) : y ∈ d.items ∨ y ∈ e.items ∨ y = .null := by
  cases e with
  | extend n =>
    rcases Data.mem_items_extendTo h hy with hy | hy
    · exact .inl hy
    · exact .inr (.inr hy)
  | remove places =>
    cases h
    exact .inl (Data.mem_items_removeIndices hy)
  | write targets source =>
    rcases Data.mem_items_writtenTo (Data.writtenTo_of_assignRecycled h) hy with hy | hy
    · exact .inl hy
    · exact .inr (.inl hy)

end Edit

def Vec.edited [Memory] (v : Vec Value) (e : Edit) : Vec Value := (v.edit e.apply).1

def Setter.value? : Setter → Option Value
  | byName _ x _ => some x
  | names _ | dim _ | dimnames _ | classes _ => none

/-- `MadeFrom rs xs y`: one operation makes `y` from values among `xs`, while the foreign objects
are `rs`. Vouching for elements from outside is no operation. -/
inductive MadeFrom [Memory] (rs : ω) (xs : List Value) : Value → Prop
  | atom {x : Value} (h : x.vector? = none) : MadeFrom rs xs x
  | ofData {d : Data Value} (hd : ∀ y ∈ d.items, y ∈ xs) : MadeFrom rs xs (.vector (.ofData d))
  | unpromised {d : Data Value} (hd : ∀ y ∈ d.items, y ∈ xs) :
    MadeFrom rs xs (.vector ⟨d, none, false⟩)
  | empty {k : Kind} {v : Vec Value} (h : Vec.empty? k = some v) : MadeFrom rs xs (.vector v)
  | part {x y : Value} (hx : x ∈ xs) (hy : y ∈ x.parts) : MadeFrom rs xs y
  | element {v : Vec Value} {i : Nat} {y : Value} (hv : .vector v ∈ xs)
    (h : v.element? i = some y) : MadeFrom rs xs y
  | withData {v : Vec Value} {d : Data Value} (hv : .vector v ∈ xs) (hd : ∀ y ∈ d.items, y ∈ xs) :
    MadeFrom rs xs (.vector (v.withData d))
  | edited {v : Vec Value} {e : Edit} (hv : .vector v ∈ xs) (he : ∀ y ∈ e.items, y ∈ xs) :
    MadeFrom rs xs (.vector (v.edited e))
  | unset {v : Vec Value} (hv : .vector v ∈ xs) :
    MadeFrom rs xs (.vector { v with complete := false })
  | recomputed {v : Vec Value} (hv : .vector v ∈ xs) : MadeFrom rs xs (.vector v.recomputeComplete)
  | setter {v : Vec Value} {s : Setter} (hv : .vector v ∈ xs)
    (hs : ∀ x, s.value? = some x → x ∈ xs) : MadeFrom rs xs (.vector (s.after v))
  | room {v : Vec Value} (hv : .vector v ∈ xs) : MadeFrom rs xs (.vector v.initAttributes)
  | put {v : Vec Value} {x : Value} (name : String) (hv : .vector v ∈ xs) (hx : x ∈ xs) :
    MadeFrom rs xs (.vector (v.putAttribute name x))
  | removed {v : Vec Value} (name : String) (hv : .vector v ∈ xs) :
    MadeFrom rs xs (.vector (v.removeAttribute name))
  | cast {x : Value} {k : Kind} {v : Vec Value} (hx : x ∈ xs) (h : (x.cast k).result = .ok v) :
    MadeFrom rs xs (.vector v)
  | text {x y : Value} (hx : x ∈ xs) (h : x.plainText = .ok y) : MadeFrom rs xs y
  | extracted {x y : Value} {ss : List Subscript} {mode : Mode} {drop : Bool} (hx : x ∈ xs)
    (h : extract rs x ss mode drop = .ok y) : MadeFrom rs xs y

/-- `Obtained rs xs`: the values `xs` and the foreign objects `rs` come from a sequence of
operations. A value stays at hand, so that it can be used again. Objects start out with nothing,
and get what they answer with from the values at hand. -/
inductive Obtained [Memory] : ω → List Value → Prop
  | start {rs : ω} (h : ∀ y, ¬Foreign.Answers rs y) : Obtained rs []
  | objects {rs rs' : ω} {xs : List Value} (h : Obtained rs xs)
    (hrs : ∀ y, Foreign.Answers rs' y → y ∈ xs ∨ Foreign.Answers rs y) : Obtained rs' xs
  | made {rs : ω} {xs : List Value} {y : Value} (h : Obtained rs xs)
    (hy : MadeFrom rs xs y) : Obtained rs (y :: xs)
  | replaced {rs rs' : ω} {xs : List Value} {x value y : Value} {ss : List Subscript}
    {mode : Mode} (h : Obtained rs xs) (hx : x ∈ xs) (hvalue : value ∈ xs)
    (hy : (replace rs x ss value mode).result = .ok (y, rs')) : Obtained rs' (y :: xs)

section

open Value

variable {rs : ω} {xs : List Value} {x y : Value} {v w : Vec Value}

theorem throughout_of_sameElements (hv : Throughout Honest (.vector v))
    (hsame : Vec.SameElements v w) (hw : w.Holds Honest) : Throughout Honest (.vector w) :=
  Vec.throughout_vector.2 ⟨(Vec.throughout_vector.1 hv).1.of_sameElements hsame, hw⟩

theorem throughout_removeAttribute (hv : Throughout Honest (.vector v)) (name : String) :
    Throughout Honest (.vector (v.removeAttribute name)) :=
  throughout_of_sameElements hv (Vec.sameElements_removeAttribute v name)
    ((Vec.throughout_vector.1 hv).2.removeAttribute name)

theorem throughout_putAttribute (hv : Throughout Honest (.vector v)) (name : String)
    (hx : Throughout Honest x) : Throughout Honest (.vector (v.putAttribute name x)) :=
  throughout_of_sameElements hv ⟨rfl, rfl⟩ ((Vec.throughout_vector.1 hv).2.putAttribute hx)

theorem throughout_setNames (hv : Throughout Honest (.vector v)) {ns : List (Option String)}
    (h : v.setNames ns = .ok w) : Throughout Honest (.vector w) :=
  throughout_of_sameElements hv (Vec.sameElements_setNames h)
    ((Vec.throughout_vector.1 hv).2.setNames plain_honest h)

theorem throughout_setDim (hv : Throughout Honest (.vector v)) {ds : List Nat}
    (h : v.setDim ds = .ok w) : Throughout Honest (.vector w) :=
  throughout_of_sameElements hv (Vec.sameElements_setDim h)
    ((Vec.throughout_vector.1 hv).2.setDim plain_honest h)

theorem throughout_setAttribute (hv : Throughout Honest (.vector v)) {name : String}
    (hx : Throughout Honest x) (h : v.setAttribute name x = .ok w) :
    Throughout Honest (.vector w) := by
  unfold Vec.setAttribute at h
  split at h
  · cases h
    exact throughout_removeAttribute hv name
  split at h
  · obtain ⟨ns, -, h⟩ := bind_eq_ok.1 h
    exact throughout_setNames hv h
  split at h
  · obtain ⟨ds, -, h⟩ := bind_eq_ok.1 h
    exact throughout_setDim hv h
  · cases h
    exact throughout_putAttribute hv name hx

theorem throughout_after (hv : Throughout Honest (.vector v)) {s : Setter}
    (hs : ∀ x, s.value? = some x → Throughout Honest x) :
    Throughout Honest (.vector (s.after v)) := by
  unfold Setter.after
  cases h : s.apply v with
  | error f => exact hv
  | ok w =>
    cases s with
    | names ns =>
      cases ns with
      | none =>
        cases h
        exact throughout_removeAttribute hv _
      | some ns => exact throughout_setNames hv h
    | dim ds =>
      cases ds with
      | none =>
        cases h
        exact throughout_removeAttribute (throughout_removeAttribute hv _) _
      | some ds => exact throughout_setDim hv h
    | dimnames ls =>
      exact throughout_of_sameElements hv (Vec.sameElements_setDimnames h)
        ((Vec.throughout_vector.1 hv).2.setDimnames plain_honest h)
    | classes cs =>
      cases h
      exact throughout_putAttribute hv _ (plain_honest.throughout_ofStrings _)
    | byName name x _ => exact throughout_setAttribute hv (hs x rfl) h

theorem throughout_edited [Memory] (hv : v.Holds Honest) {e : Edit}
    (he : ∀ y ∈ e.items, Throughout Honest y) : Throughout Honest (.vector (v.edited e)) := by
  refine Vec.throughout_vector.2 ?_
  unfold Vec.edited Vec.edit
  cases h : e.apply v.data with
  | error f =>
    simp only [h]
    exact ⟨.of_unset rfl, hv.data rfl hv.items⟩
  | ok d =>
    simp only [h]
    refine ⟨.of_unset rfl, hv.data rfl fun y hy => ?_⟩
    rcases Edit.mem_items_of_apply h hy with hy | hy | rfl
    · exact hv.items y hy
    · exact he y hy
    · exact plain_honest.throughout_null

theorem throughout_empty {k : Kind} (h : Vec.empty? k = some v) :
    Throughout Honest (.vector v) := by
  unfold Vec.empty? at h
  cases k <;> cases h <;> exact Vec.throughout_vector.2
    ⟨.of_scanned rfl, (fun _ hy => nomatch hy), fun _ hy => nomatch hy⟩

theorem throughout_cast [Memory] (hx : Throughout Honest x) {k : Kind}
    (h : (x.cast k).result = .ok v) : Throughout Honest (.vector v) := by
  unfold Value.cast at h
  split at h
  · split at h
    · rename_i hempty
      cases h
      exact throughout_empty hempty
    · cases h
  · obtain ⟨here, hholds⟩ := Vec.throughout_vector.1 hx
    exact Vec.throughout_vector.2 ⟨here.cast h, hholds.cast plain_honest h⟩
  · cases h
    exact plain_honest.throughout_ofStrings _
  · cases h
    exact plain_honest.throughout_ofList fun y hy => List.mem_singleton.1 hy ▸ hx
  · cases h

theorem throughout_plainText (h : x.plainText = .ok y) : Throughout Honest y := by
  have hplain := plain_honest.throughout_ofStrings
  unfold Value.plainText at h
  split at h
  · cases h
    exact hplain _
  · cases h
    exact hplain _
  · split at h
    · cases h
    simp only at h
    split at h
    · obtain ⟨w, hw, rfl⟩ := map_eq_ok.1 h
      exact throughout_setNames (hplain _) hw
    · cases h
      exact hplain _
  · cases h

theorem MadeFrom.honest [Memory] (hω : Foreign.Storing ω) (h : MadeFrom rs xs y)
    (hrs : Foreign.Hold Honest rs) (hxs : ∀ x ∈ xs, Throughout Honest x) : Throughout Honest y := by
  have hholds : ∀ {v}, .vector v ∈ xs → v.Holds Honest := fun hv =>
    (Vec.throughout_vector.1 (hxs _ hv)).2
  have hitems : ∀ {d : Data Value}, (∀ y ∈ d.items, y ∈ xs) →
      ∀ y ∈ d.items, Throughout Honest y := fun hd y hy => hxs y (hd y hy)
  -- one case for each operation: it scans the elements, unsets the flag or leaves both alone
  cases h with
  | atom hatom =>
    cases y with
    | vector v => cases hatom
    | _ => exact .intro trivial fun _ hy => nomatch hy
  | ofData hd => exact plain_honest.throughout_ofData (hitems hd)
  | unpromised hd =>
    exact Vec.throughout_vector.2 ⟨.of_unset rfl, hitems hd, fun _ hy => nomatch hy⟩
  | empty hempty => exact throughout_empty hempty
  | part hx hy => exact (hxs _ hx).part hy
  | element hv hy => exact (hholds hv).element? plain_honest hy
  | withData hv hd =>
    exact Vec.throughout_vector.2 ⟨.of_scanned rfl, (hholds hv).data rfl (hitems hd)⟩
  | edited hv he => exact throughout_edited (hholds hv) fun y hy => hxs y (he y hy)
  | unset hv =>
    exact Vec.throughout_vector.2 ⟨.of_unset rfl, (hholds hv).data rfl (hholds hv).items⟩
  | recomputed hv =>
    exact Vec.throughout_vector.2 ⟨.of_scanned rfl, (hholds hv).data rfl (hholds hv).items⟩
  | setter hv hs => exact throughout_after (hxs _ hv) fun x hx => hxs x (hs x hx)
  | room hv =>
    exact throughout_of_sameElements (hxs _ hv) ⟨rfl, rfl⟩
      ⟨(hholds hv).items, (hholds hv).attributes⟩
  | put name hv hx => exact throughout_putAttribute (hxs _ hv) name (hxs _ hx)
  | removed name hv => exact throughout_removeAttribute (hxs _ hv) name
  | cast hx hv => exact throughout_cast (hxs _ hx) hv
  | text _ hy => exact throughout_plainText hy
  | @extracted x _ ss mode drop hx hy =>
    have hread : Sound (fun _ => False) (Throughout Honest) (extract rs x ss mode drop) :=
      (kept_honestContract hω).extract hrs (hxs x hx) (fun _ _ => trivial) mode drop
    rwa [hy] at hread

end

/-- The flag never lies: after any sequence of operations, a vector whose flag is set has no
missing element, and neither has one in it, as an element of a list or as an attribute, however
deep, or one that a foreign object answers with. -/
theorem complete_flag_honest [Memory] (hω : Foreign.Storing ω) {rs : ω} {xs : List Value}
    (h : Obtained rs xs) :
    (∀ x ∈ xs, Value.Throughout Value.Honest x) ∧ Foreign.Hold Value.Honest rs := by
  induction h with
  | start hnone => exact ⟨fun x hx => (nomatch hx), fun y hy => absurd hy (hnone y)⟩
  | objects _ hrs ih => exact ⟨ih.1, fun y hy => (hrs y hy).elim (ih.1 y) (ih.2 y)⟩
  | made _ hy ih => exact ⟨List.forall_mem_cons.2 ⟨hy.honest hω ih.2 ih.1, ih.1⟩, ih.2⟩
  | @replaced rs rs' xs x value y ss mode _ hx hvalue hy ih =>
    have hwrite : Sound (fun _ => False) (Contract.Kept.Written (honestContract ω))
        (replace rs x ss value mode).result :=
      (kept_honestContract hω).replace ih.2 (ih.1 x hx) (ih.1 value hvalue) mode
    rw [hy] at hwrite
    exact ⟨List.forall_mem_cons.2 ⟨hwrite.1, ih.1⟩, hwrite.2⟩

namespace Records

theorem get_put (rs : Records) (label : String) (r : Record) (object : String) :
    get (Named.put rs label r) object = if object = label then r else get rs object := by
  rw [get, get, Named.lookup_put]
  split <;> rfl

theorem storing : Foreign.Storing Records := by
  rintro rs rs' object key x y hset ⟨o, k, hy⟩
  obtain ⟨r, hr, hset⟩ := bind_eq_ok.1 hset
  cases hset
  unfold Record.write at hr
  split at hr
  · cases hr
  cases hr
  change (get (Named.put rs object _) o).read k.text = .ok y at hy
  rw [get_put] at hy
  split at hy
  · subst o
    unfold Record.read at hy
    split at hy
    · cases hy
    rename_i hworks
    split at hy
    · rename_i z hz
      cases hy
      rw [Named.lookup_put] at hz
      split at hz
      · cases hz
        exact .inl rfl
      · refine .inr ⟨object, k, ?_⟩
        change (get rs object).read k.text = _
        rw [Record.read, if_neg hworks, hz]
    · cases hy
  · exact .inr ⟨o, k, hy⟩

end Records

section

attribute [local instance] Memory.unbounded

/-- An element is overwritten in a vector whose flag is set, which stays set, and the vector is put
into a list. -/
theorem complete_flag_honest_nested :
    ∃ xs, Obtained ([] : Records) xs ∧
      .vector (.ofData (.list [.vector ⟨.integer [1, 7], none, true⟩])) ∈ xs ∧
      ∀ i, (Data.integer [1, 7] : Data Value).isNAAt i = false := by
  have hempty : ∀ y, ¬Foreign.Answers ([] : Records) y := by
    rintro y ⟨object, key, hy⟩
    cases hy
  have hold : Obtained ([] : Records) [.vector (.ofData (.integer [1, 2]))] :=
    .made (.start hempty) (.ofData fun _ hy => nomatch hy)
  have hvalue : Obtained ([] : Records)
      [.vector (.ofData (.integer [7])), .vector (.ofData (.integer [1, 2]))] :=
    .made hold (.ofData fun _ hy => nomatch hy)
  have hreplaced : (replace ([] : Records) (.vector (.ofData (.integer [1, 2])))
      [.given (.vector (.ofData (.integer [2])))] (.vector (.ofData (.integer [7])))
      .subset).result = .ok (.vector ⟨.integer [1, 7], none, true⟩, []) := rfl
  have hwritten := hvalue.replaced (List.mem_cons_of_mem _ List.mem_cons_self) List.mem_cons_self
    hreplaced
  have hlist : ∀ y ∈ (Data.list [.vector ⟨.integer [1, 7], none, true⟩]).items,
      y ∈ [.vector ⟨.integer [1, 7], none, true⟩, .vector (.ofData (.integer [7])),
        .vector (.ofData (.integer [1, 2]))] := fun y hy => by
    rw [List.mem_singleton.1 hy]
    exact List.mem_cons_self
  refine ⟨_, .made hwritten (.ofData hlist), List.mem_cons_self, ?_⟩
  have hhonest :=
    (complete_flag_honest Records.storing (.made hwritten (.ofData hlist))).1 _ List.mem_cons_self
  exact (hhonest.part List.mem_cons_self).here rfl

end

end LazyVectors
