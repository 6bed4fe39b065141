import Mathlib.Data.List.Nodup
import LazyVectors.Proofs.CallSetup
set_option autoImplicit false

namespace LazyVectors

def Arg.name? {ε : Type} : Arg ε → Option String
  | named name _ => some name
  | positional _ | empty => none

def Binding.promise? : Binding → Option PromiseId
  | promise p => some p
  | value _ | missing => none

namespace Call

variable {f : Function} {c : Closure} {args : List (Arg Expr)} {caller callee : FrameId}
  {h h' : Heap} {names : List String} {slots slots' : List Slot} {xs placed : List (Option Expr)}

def givenNames (args : List (Arg Expr)) : List String := args.filterMap Arg.name?

def others (args : List (Arg Expr)) : List (Option Expr) :=
  (args.filter (·.name?.isNone)).map Arg.expr?

def freeFormals (f : Function) (args : List (Arg Expr)) : List Formal :=
  f.formals.filter fun x => x.name ∉ givenNames args

def given? : List (Arg Expr) → String → Option Expr
  | [], _ => none
  | .named n e :: args, name => if n = name then some e else given? args name
  | _ :: args, name => given? args name

theorem unnamed_eq (args : List (Arg Expr)) : unnamed args = others args := by
  induction args with
  | nil => rfl
  | cons a args ih => cases a <;> simpa [unnamed, others, Arg.name?, Arg.expr?] using ih

theorem given?_eq_none_iff {name : String} :
    given? args name = none ↔ name ∉ givenNames args := by
  induction args with
  | nil => simp [given?, givenNames]
  | cons a args ih =>
    cases a with
    | named n e =>
      by_cases hn : n = name
      · simp [given?, givenNames, Arg.name?, hn]
      · have hne : name ≠ n := fun heq => hn heq.symm
        simpa [given?, givenNames, Arg.name?, hn, hne] using ih
    | positional e => exact ih
    | empty => exact ih

theorem given?_of_mem (honce : (givenNames args).Nodup) {name : String} {e : Expr}
    (he : .named name e ∈ args) : given? args name = some e := by
  induction args with
  | nil => cases he
  | cons a args ih =>
    cases a with
    | named n e' =>
      obtain ⟨hnot, hrest⟩ := List.nodup_cons.1 (show (n :: givenNames args).Nodup from honce)
      rcases List.mem_cons.1 he with heq | he
      · cases heq
        simp [given?]
      · have hmem : name ∈ givenNames args := List.mem_filterMap.2 ⟨_, he, rfl⟩
        have hne : n ≠ name := fun heq => hnot (heq ▸ hmem)
        rw [given?, if_neg hne]
        exact ih hrest he
    | positional e' => exact ih honce (by simpa using he)
    | empty => exact ih honce (by simpa using he)

theorem set_map_names (hnames : names.Nodup) {i : Nat} {name : String}
    (hi : names.findIdx? (· == name) = some i) (g : String → Slot) (s : Slot) :
    (names.map g).set i s = names.map fun n => if n = name then s else g n := by
  obtain ⟨hlt, hat, -⟩ := List.findIdx?_eq_some_iff_getElem.1 hi
  have hname : names[i] = name := by simpa using hat
  refine List.ext_getElem (by simp) fun j hj hj' => ?_
  have hj : j < names.length := by simpa using hj'
  rw [List.getElem_set, List.getElem_map, List.getElem_map]
  by_cases hij : i = j
  · subst j
    rw [if_pos rfl, if_pos hname]
  · have hne : names[j] ≠ name := fun heq =>
      hij (hnames.getElem_inj_iff.1 (hname.trans heq.symm))
    rw [if_neg hij, if_neg hne]

/-- A name that comes again finds its place taken. -/
theorem free_after_given {n : String} {e : Expr} {g : String → Slot} :
    (∀ m ∈ givenNames args, m ∈ names ∧ (if m = n then some e else g m) = none) ↔
      n ∉ givenNames args ∧ ∀ m ∈ givenNames args, m ∈ names ∧ g m = none := by
  constructor
  · refine fun hall => ⟨fun hn => by simpa using (hall n hn).2, fun m hm => ?_⟩
    obtain ⟨hmem, hnone⟩ := hall m hm
    split at hnone
    · cases hnone
    · exact ⟨hmem, hnone⟩
  · rintro ⟨hnot, hall⟩ m hm
    have hmn : m ≠ n := fun heq => hnot (heq ▸ hm)
    rw [if_neg hmn]
    exact hall m hm

theorem map_given?_named {n : String} {e : Expr} {g : String → Slot}
    (hnot : n ∉ givenNames args) :
    (names.map fun m => (given? args m).or (if m = n then some e else g m)) =
      names.map fun m => (given? (.named n e :: args) m).or (g m) := by
  refine List.map_congr_left fun m _ => ?_
  by_cases hmn : m = n
  · subst m
    simp [given?, given?_eq_none_iff.2 hnot]
  · have hnm : n ≠ m := fun heq => hmn heq.symm
    simp [given?, hmn, hnm]

theorem placeNamed_eq_ok (hnames : names.Nodup) {g : String → Slot} :
    placeNamed names (names.map g) args = .ok slots ↔
      (∀ name ∈ givenNames args, name ∈ names ∧ g name = none) ∧ (givenNames args).Nodup ∧
        slots = names.map fun name => (given? args name).or (g name) := by
  -- `g` says what is in the places before: each named argument that finds a free place changes it
  induction args generalizing g with
  | nil => simp [placeNamed, givenNames, given?, eq_comm]
  | cons a args ih =>
    cases a with
    | named n e =>
      have hgiven : givenNames (.named n e :: args) = n :: givenNames args := rfl
      rw [hgiven, List.nodup_cons, List.forall_mem_cons, placeNamed]
      cases hi : names.findIdx? (· == n) with
      | none =>
        have hunknown : n ∉ names := fun hmem => by
          simpa using List.findIdx?_eq_none_iff.1 hi n hmem
        simp [hunknown]
      | some i =>
        obtain ⟨hlt, hat, -⟩ := List.findIdx?_eq_some_iff_getElem.1 hi
        have hname : names[i] = n := by simpa using hat
        have hknown : n ∈ names := hname ▸ List.getElem_mem hlt
        have hslot : (names.map g)[i]?.join = g n := by simp [hlt, hname]
        dsimp only
        rw [hslot]
        cases g n with
        | some e' => simp
        | none =>
          rw [if_neg (by simp), set_map_names hnames hi, ih, free_after_given]
          constructor
          · rintro ⟨⟨hnot, hall⟩, honce, rfl⟩
            exact ⟨⟨⟨hknown, rfl⟩, hall⟩, ⟨hnot, honce⟩, map_given?_named hnot⟩
          · rintro ⟨⟨-, hall⟩, ⟨hnot, honce⟩, rfl⟩
            exact ⟨⟨hnot, hall⟩, honce, (map_given?_named hnot).symm⟩
    | positional e => exact ih
    | empty => exact ih

/-- What is in the places and what is still to come are, together, always the same. -/
theorem perm_placeNamed (hlen : slots.length = names.length)
    (hs : placeNamed names slots args = .ok slots') :
    (slots'.filterMap id ++ (unnamed args).filterMap id).Perm
      (slots.filterMap id ++ args.filterMap Arg.expr?) := by
  induction args generalizing slots with
  | nil =>
    cases hs
    exact .refl _
  | cons a args ih =>
    cases a with
    | named n e =>
      rw [placeNamed] at hs
      cases hi : names.findIdx? (· == n) with
      | none => simp [hi] at hs
      | some i =>
        obtain ⟨hlt, -⟩ := List.findIdx?_eq_some_iff_getElem.1 hi
        have hi' : i < slots.length := by omega
        simp only [hi] at hs
        split at hs
        · cases hs
        · rename_i htaken
          have hfree : slots[i] = none := by simpa [hi'] using htaken
          -- the place is cut out of the others: filled instead of free it holds one expression more
          have hslots : slots = slots.take i ++ none :: slots.drop (i + 1) := by
            rw [← hfree, List.getElem_cons_drop, List.take_append_drop]
          have hset : ((slots.set i (some e)).filterMap id).Perm (e :: slots.filterMap id) := by
            rw [List.set_eq_take_append_cons_drop, if_pos hi']
            conv => rhs; rw [hslots]
            simp
          refine (ih (by simpa using hlen) hs).trans ?_
          exact (hset.append_right _).trans List.perm_middle.symm
    | positional e =>
      exact List.perm_middle.trans (((ih hlen hs).cons e).trans List.perm_middle.symm)
    | empty => exact ih hlen hs

/-- The others are placed: those in the places stay there, and the free places get, in order, what
there is to place, and nothing after that. -/
structure Filled (slots : List Slot) (xs placed : List (Option Expr)) : Prop where
  taken : List.Forall₂ (fun s y => s.isSome → y = s) slots placed
  free : ((slots.zip placed).filter (·.1.isNone)).map (·.2) =
    xs ++ List.replicate (slots.countP Option.isNone - xs.length) none
  perm : (placed.filterMap id).Perm (slots.filterMap id ++ xs.filterMap id)

theorem placeUnnamed_isSome :
    (placeUnnamed slots xs).isSome = true ↔ xs.length ≤ slots.countP Option.isNone := by
  induction slots generalizing xs with
  | nil => cases xs <;> simp [placeUnnamed]
  | cons s slots ih =>
    cases xs with
    | nil => simp [placeUnnamed]
    | cons x xs => cases s <;> simp [placeUnnamed, ih]

theorem filled_nil (slots : List Slot) : Filled slots [] slots where
  taken := List.forall₂_same.2 fun _ _ _ => rfl
  free := by
    induction slots with
    | nil => rfl
    | cons s slots ih => cases s <;> simpa [List.replicate_succ] using ih
  perm := by simp

theorem filled_of_placeUnnamed (hp : placeUnnamed slots xs = some placed) :
    Filled slots xs placed := by
  induction slots generalizing xs placed with
  | nil =>
    cases xs with
    | nil =>
      cases hp
      exact filled_nil []
    | cons x xs => cases hp
  | cons s slots ih =>
    -- with nothing left to place the slots stay as they are
    cases xs with
    | nil =>
      rw [placeUnnamed] at hp
      cases hp
      exact filled_nil _
    | cons x xs =>
      cases s with
      | some e =>
        obtain ⟨rest, hrest, rfl⟩ := Option.map_eq_some_iff.1 hp
        have hr := ih hrest
        refine ⟨.cons (fun _ => rfl) hr.taken, ?_, ?_⟩
        · simpa using hr.free
        · simpa using hr.perm
      | none =>
        obtain ⟨rest, hrest, rfl⟩ := Option.map_eq_some_iff.1 hp
        have hr := ih hrest
        refine ⟨.cons (fun hs => by cases hs) hr.taken, ?_, ?_⟩
        · simpa using hr.free
        · cases x with
          | none => simpa using hr.perm
          | some e => exact (hr.perm.cons e).trans (by simpa using List.perm_middle.symm)

/-- The arguments suit the formals: every name that was given is a formal, none was given twice, and
the others are no more than the formals that are left. -/
structure Fits (f : Function) (args : List (Arg Expr)) : Prop where
  known : ∀ name ∈ givenNames args, name ∈ f.formals.map (·.name)
  once : (givenNames args).Nodup
  room : (others args).length ≤ (freeFormals f args).length

/-- What stands for each formal: for those whose names were given what was given under them, and for
those that are left, in order, what the other arguments supply, and nothing after that. -/
structure Matched (f : Function) (args : List (Arg Expr)) (supplied : List (Option Expr)) :
    Prop where
  length : supplied.length = f.formals.length
  named : ∀ x ∈ f.formals.zip supplied, ∀ e, .named x.1.name e ∈ args → x.2 = some e
  left : ((f.formals.zip supplied).filter fun x => x.1.name ∉ givenNames args).map (·.2) =
    others args ++ List.replicate ((freeFormals f args).length - (others args).length) none

section Matching

variable {supplied : List (Option Expr)}

def placesFor (f : Function) (args : List (Arg Expr)) : List Slot :=
  f.formals.map fun x => given? args x.name

theorem countP_placesFor (f : Function) (args : List (Arg Expr)) :
    (placesFor f args).countP Option.isNone = (freeFormals f args).length := by
  rw [placesFor, List.countP_map, List.countP_eq_length_filter]
  refine congrArg List.length (List.filter_congr fun x _ => ?_)
  rw [Bool.eq_iff_iff]
  simpa using given?_eq_none_iff

theorem matchArguments_eq_ok (hnames : (f.formals.map (·.name)).Nodup) :
    matchArguments f args = .ok supplied ↔
      (∀ name ∈ givenNames args, name ∈ f.formals.map (·.name)) ∧ (givenNames args).Nodup ∧
        placeUnnamed (placesFor f args) (others args) = some supplied := by
  have hnamed : ∀ {slots}, placeNamed (f.formals.map (·.name))
      ((f.formals.map (·.name)).map fun _ => none) args = .ok slots ↔
      (∀ name ∈ givenNames args, name ∈ f.formals.map (·.name)) ∧ (givenNames args).Nodup ∧
        slots = placesFor f args := by
    intro slots
    rw [placeNamed_eq_ok hnames]
    simp [placesFor, Function.comp_def]
  unfold matchArguments
  rw [bind_eq_ok]
  constructor
  · rintro ⟨slots, hslots, hp⟩
    obtain ⟨hknown, honce, rfl⟩ := hnamed.1 hslots
    refine ⟨hknown, honce, ?_⟩
    rw [unnamed_eq] at hp
    cases hplaced : placeUnnamed (placesFor f args) (others args) with
    | none =>
      rw [hplaced] at hp
      cases hp
    | some placed =>
      rw [hplaced] at hp
      exact congrArg some (Except.ok.inj hp)
  · rintro ⟨hknown, honce, hp⟩
    refine ⟨_, hnamed.2 ⟨hknown, honce, rfl⟩, ?_⟩
    rw [unnamed_eq, hp]
    rfl

theorem matchArguments_isOk_iff (hnames : (f.formals.map (·.name)).Nodup) :
    (∃ supplied, matchArguments f args = .ok supplied) ↔ Fits f args := by
  have hroom : (∃ supplied, placeUnnamed (placesFor f args) (others args) = some supplied) ↔
      (others args).length ≤ (freeFormals f args).length := by
    rw [← Option.isSome_iff_exists, placeUnnamed_isSome, countP_placesFor]
  constructor
  · rintro ⟨supplied, hm⟩
    obtain ⟨hknown, honce, hp⟩ := (matchArguments_eq_ok hnames).1 hm
    exact ⟨hknown, honce, hroom.1 ⟨supplied, hp⟩⟩
  · intro hfits
    obtain ⟨supplied, hp⟩ := hroom.2 hfits.room
    exact ⟨supplied, (matchArguments_eq_ok hnames).2 ⟨hfits.known, hfits.once, hp⟩⟩

theorem matched_of_ok (hnames : (f.formals.map (·.name)).Nodup)
    (hm : matchArguments f args = .ok supplied) : Matched f args supplied := by
  obtain ⟨-, honce, hp⟩ := (matchArguments_eq_ok hnames).1 hm
  have hfilled := filled_of_placeUnnamed hp
  have hlen : (placesFor f args).length = f.formals.length := by simp [placesFor]
  -- places and formals go together
  have hzip : (placesFor f args).zip supplied =
      (f.formals.zip supplied).map fun x => (given? args x.1.name, x.2) := by
    rw [placesFor, List.zip_map_left]
    rfl
  refine ⟨hfilled.taken.length_eq.symm.trans hlen, fun x hx e he => ?_, ?_⟩
  · have hgiven := given?_of_mem honce he
    have hmem : (given? args x.1.name, x.2) ∈ (placesFor f args).zip supplied := by
      rw [hzip]
      exact List.mem_map.2 ⟨x, hx, rfl⟩
    have hsame := (List.forall₂_iff_zip.1 hfilled.taken).2 hmem
    rw [hgiven] at hsame
    exact hsame rfl
  · have hfree := hfilled.free
    rw [hzip, List.filter_map, List.map_map, countP_placesFor] at hfree
    refine Eq.trans (congrArg (List.map _) (List.filter_congr fun x _ => ?_)) hfree
    rw [Bool.eq_iff_iff]
    simpa using given?_eq_none_iff.symm

theorem perm_matchArguments (hm : matchArguments f args = .ok supplied) :
    (supplied.filterMap id).Perm (args.filterMap Arg.expr?) := by
  obtain ⟨slots, hslots, hrest⟩ := bind_eq_ok.1 hm
  cases hp : placeUnnamed slots (unnamed args) with
  | none => simp [hp] at hrest
  | some placed =>
    obtain rfl : placed = supplied := by simpa [hp, pure, Except.pure] using hrest
    have hstart : ((f.formals.map (·.name)).map fun _ => (none : Slot)).filterMap id = [] := by
      simp
    have hplaced := perm_placeNamed (by simp) hslots
    rw [hstart] at hplaced
    exact (filled_of_placeUnnamed hp).perm.trans hplaced

end Matching

def Promised (h : Heap) (b : Binding) (r : Promise) : Prop :=
  ∃ p, b = .promise p ∧ h.promises[p]? = some r

/-- How a formal is bound for which something, or nothing, was supplied: to an evaluated promise for
a constant, to a promise of the caller for another expression, to a promise for the default in the
frame of the call, or as missing. -/
def BoundFor (h : Heap) (caller callee : FrameId) (x : Formal × Option Expr)
    (b : String × Binding) : Prop :=
  b.1 = x.1.name ∧
    match x.2, x.1.fallback with
    | some (.constant v), _ => Promised h b.2 (.evaluated (.constant v) v)
    | some e, _ => Promised h b.2 (.argument e caller)
    | none, some e => Promised h b.2 (.default e callee)
    | none, none => b.2 = .missing

theorem boundFor_iff {x : Formal × Option Expr} {b : String × Binding} :
    BoundFor h caller callee x b ↔ b.1 = x.1.name ∧
      match promiseFor caller callee x.2 x.1.fallback with
      | some r => Promised h b.2 r
      | none => b.2 = .missing := by
  obtain ⟨⟨name, fallback⟩, supplied⟩ := x
  refine and_congr_right fun _ => ?_
  unfold promiseFor
  split <;> simp_all

theorem frame_define_new {r : Frame} {name : String} (hr : h.frames[callee]? = some r)
    (hnew : name ∉ r.bindings.names) {g : Heap} (hg : g.frames = h.frames) (b : Binding) :
    (g.define callee name b).frames[callee]? =
      some { r with bindings := r.bindings ++ [(name, b)] } := by
  have hput : r.bindings.put name b = r.bindings ++ [(name, b)] := by
    refine Named.put_of_new (List.findIdx?_eq_none_iff.2 fun y hy => beq_false_of_ne ?_) b
    exact fun heq => hnew (heq ▸ List.mem_map.2 ⟨y, hy, rfl⟩)
  rw [Heap.define, Array.getElem?_modify, if_pos rfl, hg, hr, ← hput]
  rfl

theorem bindings_bindFormals (caller : FrameId) {r : Frame}
    {formals : List (Formal × Option Expr)}
    (hr : h.frames[callee]? = some r)
    (hnames : (r.bindings.names ++ formals.map (·.1.name)).Nodup) :
    let h' := bindFormals caller callee h formals
    ∃ bs, h'.frames[callee]? = some { r with bindings := r.bindings ++ bs } ∧
      List.Forall₂ (BoundFor h' caller callee) formals bs ∧
      bs.filterMap (·.2.promise?) =
        List.range' h.promises.size (bs.filterMap (·.2.promise?)).length := by
  -- what was bound before stays in front, so the induction is over all frames and heaps
  induction formals generalizing h r with
  | nil => exact ⟨[], by simpa [bindFormals] using hr, .nil, rfl⟩
  | cons x rest ih =>
    have hnew : x.1.name ∉ r.bindings.names := fun hmem =>
      (List.disjoint_of_nodup_append hnames) hmem List.mem_cons_self
    have hrest : ∀ b : Binding,
        ((r.bindings ++ [(x.1.name, b)]).names ++ rest.map (·.1.name)).Nodup := fun b => by
      simpa [Named.names] using hnames
    unfold bindFormals
    cases hp : promiseFor caller callee x.2 x.1.fallback with
    | some q =>
      dsimp only
      have hpushed : (h.pushPromise q).2.frames = h.frames := rfl
      obtain ⟨bs, hbs, hbound, hids⟩ :=
        ih (frame_define_new hr hnew hpushed (.promise h.promises.size)) (hrest _)
      have hq : ((h.pushPromise q).2.define callee x.1.name
          (.promise h.promises.size)).promises[h.promises.size]? = some q := by
        rw [Heap.promises_define, Heap.getElem?_pushPromise, if_pos rfl]
      refine ⟨(x.1.name, .promise h.promises.size) :: bs, ?_, .cons ?_ hbound, ?_⟩
      · rw [List.append_cons]
        exact hbs
      · refine boundFor_iff.2 ⟨rfl, ?_⟩
        rw [hp]
        exact ⟨_, rfl, getElem?_promises_bindFormals hq rest⟩
      · have hsize : ((h.pushPromise q).2.define callee x.1.name
            (.promise h.promises.size)).promises.size = h.promises.size + 1 := by
          simp [Heap.pushPromise]
        rw [hsize] at hids
        have hcons : ((x.1.name, Binding.promise h.promises.size) :: bs).filterMap (·.2.promise?) =
            h.promises.size :: bs.filterMap (·.2.promise?) := rfl
        rw [hcons, List.length_cons, List.range'_succ, ← hids]
    | none =>
      dsimp only
      obtain ⟨bs, hbs, hbound, hids⟩ := ih (frame_define_new hr hnew rfl .missing) (hrest _)
      refine ⟨(x.1.name, .missing) :: bs, ?_, .cons ?_ hbound, ?_⟩
      · rw [List.append_cons]
        exact hbs
      · refine boundFor_iff.2 ⟨rfl, ?_⟩
        rw [hp]
      · exact hids

theorem frame_bindArguments {supplied : List (Option Expr)}
    (hnames : (f.formals.map (·.name)).Nodup) (hm : matchArguments f args = .ok supplied)
    (c : Closure) (caller : FrameId) (h : Heap) :
    ∃ h' bs, bindArguments f c args caller h = .ok (h.frames.size, h') ∧
      h'.frames[h.frames.size]? = some ⟨.call c.function, some c.frame, bs⟩ ∧
      List.Forall₂ (BoundFor h' caller h.frames.size) (f.formals.zip supplied) bs ∧
      bs.filterMap (·.2.promise?) =
        List.range' h.promises.size (bs.filterMap (·.2.promise?)).length := by
  have hframe : (h.newChild c.frame (.call c.function)).2.frames[h.frames.size]? =
      some ⟨.call c.function, some c.frame, []⟩ := by
    simp [Heap.newChild, Heap.pushFrame]
  have hzip : (Named.names ([] : Named Binding) ++
      (f.formals.zip supplied).map (·.1.name)).Nodup :=
    hnames.sublist (sublist_names_zip f.formals supplied)
  obtain ⟨bs, hbs, hbound, hids⟩ := bindings_bindFormals caller hframe hzip
  exact ⟨_, bs, bindArguments_eq_ok.2 ⟨supplied, hm, rfl, rfl⟩, hbs, hbound, hids⟩

end Call

open Call

/-- Matching succeeds exactly when every name that was given is a formal, none was given twice, and
the other arguments are no more than the formals that are left. Then formals whose names were given
get what was given for them, and the others, in order, what the arguments without a name supply, in
order; every expression that was supplied stands for exactly one formal. The new frame of the call
binds the formals, in order and nothing else, each to a new promise of its own or as missing. -/
theorem arguments_matched_exactly {f : Function} (hnames : (f.formals.map (·.name)).Nodup)
    (args : List (Arg Expr)) :
    ((∃ supplied, matchArguments f args = .ok supplied) ↔ Fits f args) ∧
    ∀ supplied, matchArguments f args = .ok supplied →
      Matched f args supplied ∧
      (supplied.filterMap id).Perm (args.filterMap Arg.expr?) ∧
      ∀ (c : Closure) (caller : FrameId) (h : Heap), ∃ h' bs,
        bindArguments f c args caller h = .ok (h.frames.size, h') ∧
        h'.frames[h.frames.size]? = some ⟨.call c.function, some c.frame, bs⟩ ∧
        List.Forall₂ (BoundFor h' caller h.frames.size) (f.formals.zip supplied) bs ∧
        bs.filterMap (·.2.promise?) =
          List.range' h.promises.size (bs.filterMap (·.2.promise?)).length := by
  refine ⟨matchArguments_isOk_iff hnames, fun supplied hm => ?_⟩
  exact ⟨matched_of_ok hnames hm, perm_matchArguments hm,
    fun c caller h => frame_bindArguments hnames hm c caller h⟩

def fourFormals : Function :=
  ⟨some "f", [⟨"x", none⟩, ⟨"y", some (.lookup "x")⟩, ⟨"z", none⟩, ⟨"w", none⟩], .lookup "y"⟩

def mixedArguments : List (Arg Expr) :=
  [.positional (.lookup "a"), .named "z" (.constant .null), .empty]

/-- The second formal is left to its default, and the last one is missing. -/
theorem arguments_matched_exactly_mixed :
    (fourFormals.formals.map (·.name)).Nodup ∧ Fits fourFormals mixedArguments ∧
    matchArguments fourFormals mixedArguments =
      .ok [some (.lookup "a"), none, some (.constant .null), none] ∧
    ∃ h' bs, bindArguments fourFormals ⟨0, 0, some "f"⟩ mixedArguments 0 (Heap.newTop {}).2 =
        .ok (1, h') ∧
      List.Forall₂ (BoundFor h' 0 1) (fourFormals.formals.zip
        [some (.lookup "a"), none, some (.constant .null), none]) bs := by
  have hnames : (fourFormals.formals.map (·.name)).Nodup := by decide
  have hm : matchArguments fourFormals mixedArguments =
      .ok [some (.lookup "a"), none, some (.constant .null), none] := rfl
  obtain ⟨hiff, hmatched⟩ := arguments_matched_exactly hnames mixedArguments
  obtain ⟨-, -, hbound⟩ := hmatched _ hm
  obtain ⟨h', bs, hb, -, hbs, -⟩ := hbound ⟨0, 0, some "f"⟩ 0 (Heap.newTop {}).2
  exact ⟨hnames, hiff.1 ⟨_, hm⟩, hm, h', bs, hb, hbs⟩

end LazyVectors
