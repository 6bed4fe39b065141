import LazyVectors.Proofs.HeapChanges
set_option autoImplicit false

namespace LazyVectors

namespace Call

variable {f : Function} {c : Closure} {args : List (Arg Expr)} {caller callee : FrameId}
  {h h' : Heap} {p : PromiseId} {r : Promise} {e : Expr}

theorem mem_placeNamed {formals : List String} {slots slots' : List Slot}
    (hs : placeNamed formals slots args = .ok slots') (he : some e ∈ slots') :
    some e ∈ slots ∨ ∃ a ∈ args, a.expr? = some e := by
  induction args generalizing slots with
  | nil =>
    cases hs
    exact .inl he
  | cons a args ih =>
    have hlater : ∀ {slots}, placeNamed formals slots args = .ok slots' →
        some e ∈ slots ∨ ∃ b ∈ a :: args, b.expr? = some e := fun hs =>
      (ih hs).imp id fun ⟨b, hb, hbe⟩ => ⟨b, List.mem_cons_of_mem _ hb, hbe⟩
    cases a with
    | named name x =>
      unfold placeNamed at hs
      split at hs
      · cases hs
      split at hs
      · cases hs
      · rcases hlater hs with hmem | hlast
        · rcases List.mem_or_eq_of_mem_set hmem with hmem | hx
          · exact .inl hmem
          · exact .inr ⟨.named name x, List.mem_cons_self, hx.symm⟩
        · exact .inr hlast
    | positional x => exact hlater hs
    | empty => exact hlater hs

theorem mem_unnamed (he : some e ∈ unnamed args) : ∃ a ∈ args, a.expr? = some e := by
  induction args with
  | nil => cases he
  | cons a args ih =>
    have hlater : some e ∈ unnamed args → ∃ b ∈ a :: args, b.expr? = some e := fun he =>
      (ih he).imp fun b hb => ⟨List.mem_cons_of_mem _ hb.1, hb.2⟩
    cases a with
    | named name x => exact hlater he
    | positional x =>
      rcases List.mem_cons.1 he with hx | he
      · exact ⟨.positional x, List.mem_cons_self, hx.symm⟩
      · exact hlater he
    | empty =>
      rcases List.mem_cons.1 he with hx | he
      · cases hx
      · exact hlater he

theorem mem_placeUnnamed {slots : List Slot} {xs placed : List (Option Expr)}
    (hp : placeUnnamed slots xs = some placed) (he : some e ∈ placed) :
    some e ∈ slots ∨ some e ∈ xs := by
  induction slots generalizing xs placed with
  | nil =>
    cases xs with
    | nil =>
      cases hp
      exact .inl he
    | cons x xs => cases hp
  | cons slot slots ih =>
    cases xs with
    | nil =>
      rw [placeUnnamed] at hp
      cases hp
      exact .inl he
    | cons x xs =>
      cases slot with
      | some y =>
        obtain ⟨rest, hrest, rfl⟩ := Option.map_eq_some_iff.1 hp
        rcases List.mem_cons.1 he with hy | he
        · exact .inl (List.mem_cons.2 (.inl hy))
        · exact (ih hrest he).imp (List.mem_cons_of_mem _) id
      | none =>
        obtain ⟨rest, hrest, rfl⟩ := Option.map_eq_some_iff.1 hp
        rcases List.mem_cons.1 he with hx | he
        · exact .inr (List.mem_cons.2 (.inl hx))
        · exact (ih hrest he).imp (List.mem_cons_of_mem _) (List.mem_cons_of_mem _)

theorem mem_matchArguments {supplied : List (Option Expr)}
    (hm : matchArguments f args = .ok supplied) (he : some e ∈ supplied) :
    ∃ a ∈ args, a.expr? = some e := by
  obtain ⟨slots, hslots, hrest⟩ := bind_eq_ok.1 hm
  cases hp : placeUnnamed slots (unnamed args) with
  | none => simp [hp] at hrest
  | some placed =>
    obtain rfl : placed = supplied := by simpa [hp, pure, Except.pure] using hrest
    rcases mem_placeUnnamed hp he with hmem | hmem
    · rcases mem_placeNamed hslots hmem with hfree | hnamed
      · simp at hfree
      · exact hnamed
    · exact mem_unnamed hmem

section PromiseFor

variable {supplied fallback : Option Expr}
  (hr : promiseFor caller callee supplied fallback = some r)
include hr

theorem promiseFor_evaluated (he : r.state = .evaluated) : ∃ x, r.expr = .constant x := by
  unfold promiseFor at hr
  split at hr <;> cases hr
  · exact ⟨_, rfl⟩
  · simp [Promise.argument] at he
  · simp [Promise.default] at he

theorem expr_promiseFor : supplied = some r.expr ∨ fallback = some r.expr := by
  unfold promiseFor at hr
  split at hr <;> cases hr
  · exact .inl rfl
  · exact .inl rfl
  · exact .inr rfl

theorem frame_promiseFor {g : FrameId} (hg : r.frame = some g) : g = caller ∨ g = callee := by
  unfold promiseFor at hr
  split at hr <;> cases hr <;> cases hg
  · exact .inl rfl
  · exact .inr rfl

end PromiseFor

theorem size_frames_bindFormals (formals : List (Formal × Option Expr)) :
    (bindFormals caller callee h formals).frames.size = h.frames.size := by
  induction formals generalizing h with
  | nil => rfl
  | cons x rest ih =>
    unfold bindFormals
    split
    · rw [ih]
      exact Heap.size_frames_define _ _ _ _
    · rw [ih]
      exact Heap.size_frames_define _ _ _ _

theorem frames_bindFormals {g : FrameId} (hg : g ≠ callee)
    (formals : List (Formal × Option Expr)) :
    (bindFormals caller callee h formals).frames[g]? = h.frames[g]? := by
  induction formals generalizing h with
  | nil => rfl
  | cons x rest ih =>
    unfold bindFormals
    split
    · rw [ih]
      exact Heap.frames_define_of_ne hg _ _ _
    · rw [ih]
      exact Heap.frames_define_of_ne hg _ _ _

theorem functions_bindFormals (formals : List (Formal × Option Expr)) :
    (bindFormals caller callee h formals).functions = h.functions := by
  induction formals generalizing h with
  | nil => rfl
  | cons x rest ih =>
    unfold bindFormals
    split <;> exact ih

theorem promises_bindFormals (formals : List (Formal × Option Expr))
    (hr : (bindFormals caller callee h formals).promises[p]? = some r) :
    h.promises[p]? = some r ∨
      ∃ x ∈ formals, promiseFor caller callee x.2 x.1.fallback = some r := by
  induction formals generalizing h with
  | nil => exact .inl hr
  | cons x rest ih =>
    unfold bindFormals at hr
    split at hr
    · rename_i r' hr'
      rcases ih hr with hr | ⟨y, hy, hr⟩
      · rw [Heap.promises_define] at hr
        change (h.pushPromise r').2.promises[p]? = some r at hr
        rw [Heap.getElem?_pushPromise] at hr
        split at hr
        · cases hr
          exact .inr ⟨x, List.mem_cons_self, hr'⟩
        · exact .inl hr
      · exact .inr ⟨y, List.mem_cons_of_mem _ hy, hr⟩
    · rcases ih (h := h.define callee x.1.name .missing) hr with hr | ⟨y, hy, hr⟩
      · exact .inl hr
      · exact .inr ⟨y, List.mem_cons_of_mem _ hy, hr⟩

theorem local?_bindFormals_of_notMem {name : String} {formals : List (Formal × Option Expr)}
    (hname : name ∉ formals.map fun x => x.1.name) (g : FrameId) :
    (bindFormals caller callee h formals).local? g name = h.local? g name := by
  induction formals generalizing h with
  | nil => rfl
  | cons x rest ih =>
    simp only [List.map_cons, List.mem_cons, not_or] at hname
    have hother : ∀ (h : Heap) (b : Binding),
        (h.define callee x.1.name b).local? g name = h.local? g name := fun h b => by
      rw [Heap.local?_define, if_neg fun hself => hname.1 hself.2.2]
    unfold bindFormals
    split
    · rw [ih hname.2, hother]
      rfl
    · rw [ih hname.2, hother]

theorem getElem?_promises_bindFormals (hr : h.promises[p]? = some r)
    (formals : List (Formal × Option Expr)) :
    (bindFormals caller callee h formals).promises[p]? = some r := by
  induction formals generalizing h with
  | nil => exact hr
  | cons x rest ih =>
    unfold bindFormals
    split
    · rename_i r' _
      have hne : p ≠ h.promises.size := Nat.ne_of_lt (Array.getElem?_eq_some_iff.1 hr).1
      have hstay : (h.pushPromise r').2.promises[p]? = some r := by
        rw [Heap.getElem?_pushPromise, if_neg hne, hr]
      exact ih hstay
    · exact ih hr

/-- A formal for which there is a promise is bound to it, unless a later one has its name. -/
theorem local?_bindFormals {x : Formal × Option Expr} {formals : List (Formal × Option Expr)}
    (hcallee : callee < h.frames.size) (hnames : (formals.map fun x => x.1.name).Nodup)
    (hx : x ∈ formals) (hr : promiseFor caller callee x.2 x.1.fallback = some r) :
    ∃ p, (bindFormals caller callee h formals).local? callee x.1.name = some (.promise p) ∧
      (bindFormals caller callee h formals).promises[p]? = some r := by
  induction formals generalizing h with
  | nil => cases hx
  | cons y rest ih =>
    obtain ⟨hnot, hrest⟩ := List.nodup_cons.1 hnames
    rcases List.mem_cons.1 hx with rfl | hx
    · simp only [bindFormals, hr]
      refine ⟨h.promises.size, ?_, getElem?_promises_bindFormals ?_ _⟩
      · rw [local?_bindFormals_of_notMem hnot, Heap.local?_define, if_pos ⟨rfl, hcallee, rfl⟩]
        rfl
      · rw [Heap.promises_define, Heap.getElem?_pushPromise, if_pos rfl]
    · unfold bindFormals
      split
      · exact ih (by simpa [Heap.pushPromise] using hcallee) hrest hx
      · exact ih (by simpa using hcallee) hrest hx

theorem sublist_names_zip (formals : List Formal) (supplied : List (Option Expr)) :
    ((formals.zip supplied).map fun x => x.1.name).Sublist (formals.map (·.name)) := by
  induction formals generalizing supplied with
  | nil => exact List.Sublist.slnil
  | cons formal rest ih =>
    cases supplied with
    | nil => exact List.nil_sublist _
    | cons x supplied => exact (ih supplied).cons_cons _

theorem bindArguments_eq_ok :
    bindArguments f c args caller h = .ok (callee, h') ↔
      ∃ supplied, matchArguments f args = .ok supplied ∧ callee = h.frames.size ∧
        h' = bindFormals caller h.frames.size (h.newChild c.frame (.call c.function)).2
          (f.formals.zip supplied) := by
  unfold bindArguments
  rw [bind_eq_ok]
  refine exists_congr fun supplied => and_congr_right fun _ => ?_
  simp [Heap.newChild, Heap.pushFrame, pure, Except.pure, eq_comm]

section BindArguments

variable (hb : bindArguments f c args caller h = .ok (callee, h'))
include hb

theorem callee_eq : callee = h.frames.size := by
  obtain ⟨_, _, hcallee, _⟩ := bindArguments_eq_ok.1 hb
  exact hcallee

theorem size_frames_bindArguments : h'.frames.size = h.frames.size + 1 := by
  obtain ⟨_, _, _, rfl⟩ := bindArguments_eq_ok.1 hb
  rw [size_frames_bindFormals]
  exact Heap.size_frames_pushFrame h _

theorem frames_bindArguments {g : FrameId} (hg : g < h.frames.size) :
    h'.frames[g]? = h.frames[g]? := by
  obtain ⟨_, _, _, rfl⟩ := bindArguments_eq_ok.1 hb
  rw [frames_bindFormals (Nat.ne_of_lt hg)]
  simp [Heap.newChild, Heap.pushFrame, Array.getElem?_push, Nat.ne_of_lt hg]

theorem functions_bindArguments : h'.functions = h.functions := by
  obtain ⟨_, _, _, rfl⟩ := bindArguments_eq_ok.1 hb
  exact functions_bindFormals _

theorem promises_bindArguments (hr : h'.promises[p]? = some r) :
    h.promises[p]? = some r ∨ ∃ supplied fallback,
      promiseFor caller callee supplied fallback = some r ∧
      (∀ e, supplied = some e → ∃ a ∈ args, a.expr? = some e) ∧
      ∀ e, fallback = some e → ∃ x ∈ f.formals, x.fallback = some e := by
  obtain ⟨supplied, hm, rfl, rfl⟩ := bindArguments_eq_ok.1 hb
  rcases promises_bindFormals _ hr with hr | ⟨⟨formal, given⟩, hx, hr⟩
  · exact .inl hr
  · obtain ⟨hformal, hgiven⟩ := List.of_mem_zip hx
    refine .inr ⟨given, formal.fallback, hr, fun e he => ?_, fun e he => ⟨formal, hformal, he⟩⟩
    exact mem_matchArguments hm (he ▸ hgiven)

/-- A call adds no evaluated promises but those of constants. -/
theorem evaluated_of_bindArguments (hr : h'.promises[p]? = some r) (he : r.state = .evaluated) :
    h.promises[p]? = some r ∨ ∃ x, r.expr = .constant x := by
  rcases promises_bindArguments hb hr with hr | ⟨supplied, fallback, hr, -⟩
  · exact .inl hr
  · exact .inr (promiseFor_evaluated hr he)

end BindArguments

end Call

end LazyVectors
