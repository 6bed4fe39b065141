import Mathlib.Data.List.Perm.Subperm
import Mathlib.Data.List.ProdSigma
import LazyVectors.Missing
import LazyVectors.Proofs.HeapChanges
/-!
How an argument is followed. What a verdict says of the promise it was read off is stated once
(`verdict_missing`, `verdict_forwarded`). A walk leaves the heap as it found it, since all its
marks are taken back (`walk_heap`); a walk that comes to an end does so within the bound that
the heap sets for it (`walk_within_bound`).
-/

set_option autoImplicit false

namespace LazyVectors

namespace Heap

variable {h h' : Heap} {roots : List Handle} {name : String} {frame : FrameId} {level n m : Nat}

theorem verdict_missing (hv : h.verdict roots name frame level = .settled true) :
    h.local? frame name = some .missing ∨
    ∃ p r, h.local? frame name = some (.promise p) ∧ h.promises[p]? = some r ∧
      (level = 0 ∧ r.isDefault = true ∨ r.state = .underEvaluation) := by
  unfold verdict at hv
  split at hv <;> try cases hv
  · exact .inl ‹_›
  rename_i p hp
  split at hv <;> try cases hv
  rename_i r hr
  refine .inr ⟨p, r, hp, hr, ?_⟩
  unfold promiseVerdict at hv
  split at hv
  · exact .inl ‹_›
  split at hv <;> try cases hv
  split at hv
  · exact .inr ‹_›
  split at hv <;> try cases hv
  split at hv <;> try cases hv
  split at hv <;> cases hv

/-- An argument is followed if its promise is for a bare name and may still be evaluated. One that
has been evaluated is followed only from the first level, and behind a mark. -/
theorem verdict_forwarded {next : String} {f : FrameId} {mark : Option PromiseId}
    (hv : h.verdict roots name frame level = .forwarded next f mark) :
    ∃ p r, h.local? frame name = some (.promise p) ∧ h.promises[p]? = some r ∧
      (level = 0 ∨ r.state ≠ .evaluated) ∧ r.state ≠ .underEvaluation ∧
      r.expr = .lookup next ∧ r.frame = some f ∧
      (mark = some p ∨ mark = none ∧ r.state ≠ .evaluated) := by
  -- every other branch of the verdict settles the question
  unfold verdict at hv
  split at hv <;> try cases hv
  rename_i p hp
  split at hv <;> try cases hv
  rename_i r hr
  refine ⟨p, r, hp, hr, ?_⟩
  unfold promiseVerdict at hv
  split at hv <;> try cases hv
  split at hv <;> try cases hv
  rename_i hdeep
  split at hv <;> try cases hv
  rename_i hu
  split at hv <;> try cases hv
  rename_i name' f' hname hframe
  have hlevel : level = 0 ∨ r.state ≠ .evaluated := by
    by_cases h0 : level = 0
    · exact .inl h0
    · exact .inr fun he => hdeep ⟨h0, he⟩
  have hexpr : r.expr = .lookup name' := by
    cases he : r.expr with
    | lookup name => simpa [he, Expr.name?] using hname
    | _ => simp [he, Expr.name?] at hname
  have hf : r.frame = some f' := (Option.filter_eq_some_iff.1 hframe).1
  split at hv
  · cases hv
    exact ⟨hlevel, hu, hexpr, hf, .inl rfl⟩
  · split at hv <;> cases hv
    exact ⟨hlevel, hu, hexpr, hf, .inr ⟨rfl, ‹_›⟩⟩

theorem origin?_ne_of_forwarded {next : String} {f : FrameId}
    (hv : h.verdict roots name frame level = .forwarded next f none) :
    h.origin? f ≠ h.origin? frame := by
  unfold verdict at hv
  split at hv <;> try cases hv
  split at hv <;> try cases hv
  unfold promiseVerdict at hv
  split at hv <;> try cases hv
  split at hv <;> try cases hv
  split at hv <;> try cases hv
  split at hv <;> try cases hv
  split at hv <;> try cases hv
  split at hv <;> try cases hv
  assumption

/-- The heap as a walk sees it behind a promise. -/
def marked (h : Heap) : Option PromiseId → Heap
  | none => h
  | some p => h.setState p .underEvaluation

@[simp] theorem frames_marked (h : Heap) (mark : Option PromiseId) :
    (h.marked mark).frames = h.frames := by
  cases mark <;> rfl

@[simp] theorem size_promises_marked (h : Heap) (mark : Option PromiseId) :
    (h.marked mark).promises.size = h.promises.size := by
  cases mark <;> simp [marked, setState]

theorem promises_ext (hf : h.frames = h'.frames) (hg : h.functions = h'.functions)
    (hp : ∀ q : PromiseId, h.promises[q]? = h'.promises[q]?) : h = h' := by
  obtain ⟨frames, promises, functions⟩ := h
  obtain ⟨frames', promises', functions'⟩ := h'
  have hpromises : promises = promises' := Array.ext_getElem? hp
  subst hf
  subst hg
  subst hpromises
  rfl

theorem setState_of_none {p : PromiseId} (hp : h.promises[p]? = none) (s : PromiseState) :
    h.setState p s = h := by
  refine promises_ext rfl rfl fun q => ?_
  rw [getElem?_setState]
  split
  · subst q
    simp [hp]
  · rfl

theorem setState_setState {p : PromiseId} {r : Promise} (hr : h.promises[p]? = some r)
    (s : PromiseState) : (h.setState p s).setState p r.state = h := by
  refine promises_ext rfl rfl fun q => ?_
  rw [getElem?_setState, getElem?_setState]
  by_cases hq : p = q
  · subst q
    simp [hr]
  · simp [hq]

theorem guarded_eq {α : Type} (h : Heap) (mark : Option PromiseId)
    (next : Heap → Option (α × Heap))
    (hnext : ∀ a h', next (h.marked mark) = some (a, h') → h' = h.marked mark) :
    h.guarded mark next = (next (h.marked mark)).map fun r => (r.1, h) := by
  cases mark with
  | none =>
    cases ha : next h with
    | none => simp [guarded, marked, ha]
    | some r => simpa [guarded, marked, ha, Prod.ext_iff] using hnext r.1 r.2 ha
  | some p =>
    unfold guarded
    cases hr : h.promises[p]? with
    | none =>
      have hsame : h.marked (some p) = h := setState_of_none hr _
      rw [hsame] at hnext ⊢
      cases ha : next h with
      | none => simp [hr]
      | some r => simpa [hr, ha, Prod.ext_iff] using hnext r.1 r.2 ha
    | some r =>
      simp only [hr, Option.bind_some, Option.map_some]
      change (next (h.marked (some p))).map _ = _
      cases ha : next (h.marked (some p)) with
      | none => rfl
      | some x =>
        obtain ⟨a, h'⟩ := x
        have hback : h'.setState p r.state = h := by
          rw [hnext a h' ha]
          exact setState_setState hr _
        simp [hback]

theorem walk_heap {b : Bool} (hw : walk roots n h name frame level = some (b, h')) : h' = h := by
  induction n generalizing h h' name frame level b with
  | zero => cases hw
  | succ n ih =>
    unfold walk at hw
    split at hw
    · cases hw
      rfl
    · rw [guarded_eq _ _ _ fun a h' hn => ih hn] at hw
      obtain ⟨r, -, hr⟩ := Option.map_eq_some_iff.1 hw
      exact (congrArg Prod.snd hr).symm

theorem walk_succ (roots : List Handle) (n : Nat) (h : Heap) (name : String) (frame : FrameId)
    (level : Nat) :
    walk roots (n + 1) h name frame level =
      match h.verdict roots name frame level with
      | .settled b => some (b, h)
      | .forwarded next f mark =>
        (walk roots n (h.marked mark) next f (level + 1)).map fun r => (r.1, h) := by
  rw [walk]
  cases h.verdict roots name frame level with
  | settled b => rfl
  | forwarded next f mark => exact guarded_eq _ _ _ fun a h' hn => walk_heap hn

theorem walk_mono {a : Bool × Heap} (hw : walk roots n h name frame level = some a)
    (hnm : n ≤ m) : walk roots m h name frame level = some a := by
  induction n generalizing m h name frame level a with
  | zero => cases hw
  | succ n ih =>
    obtain ⟨m, rfl⟩ : ∃ k, m = k + 1 := ⟨m - 1, by omega⟩
    rw [walk_succ] at hw ⊢
    split at hw
    · exact hw
    · obtain ⟨r, hr, rfl⟩ := Option.map_eq_some_iff.1 hw
      exact Option.map_eq_some_iff.2 ⟨r, ih hr (Nat.le_of_succ_le_succ hnm), rfl⟩

theorem walk_deep {k : Nat} (hlevel : level ≠ 0) (hk : k ≠ 0) :
    walk roots n h name frame level = walk roots n h name frame k := by
  induction n generalizing h name frame level k with
  | zero => rfl
  | succ n ih =>
    have hverdict : h.verdict roots name frame level = h.verdict roots name frame k := by
      simp [verdict, promiseVerdict, hlevel, hk]
    simp only [walk_succ, hverdict]
    split
    · rfl
    · rw [ih (Nat.succ_ne_zero level) (Nat.succ_ne_zero k)]

theorem countP_modify_lt {α : Type} {p : α → Bool} {f : α → α} {x : α} {xs : List α} {i : Nat}
    (hx : xs[i]? = some x) (hp : p x = true) (hf : p (f x) = false) :
    (xs.modify i f).countP p < xs.countP p := by
  induction xs generalizing i with
  | nil => simp at hx
  | cons y ys ih =>
    cases i with
    | zero =>
      cases hx
      simp [hp, hf]
    | succ i =>
      have hlt := ih (i := i) (by simpa using hx)
      simp only [List.modify_succ_cons, List.countP_cons]
      omega

def unmarked (h : Heap) : Nat := h.promises.toList.countP (·.state != .underEvaluation)

theorem unmarked_le (h : Heap) : h.unmarked ≤ h.promises.size := by
  simpa [unmarked] using List.countP_le_length (p := fun r : Promise => r.state != .underEvaluation)
    (l := h.promises.toList)

def places (h : Heap) : List (FrameId × String) :=
  h.frames.toList.zipIdx.flatMap fun fr => fr.1.bindings.map fun b => (fr.2, b.1)

theorem length_places (h : Heap) : h.places.length = h.bindingCount := by
  have hsum : h.places.length =
      (h.frames.toList.zipIdx.map fun fr => fr.1.bindings.length).sum := by
    simp [places, List.length_flatMap]
  have hframes : h.frames.toList.map (fun fr => fr.bindings.length) =
      h.frames.toList.zipIdx.map fun fr => fr.1.bindings.length := by
    conv_lhs => rw [← List.zipIdx_map_fst 0 h.frames.toList]
    exact List.map_map
  rw [hsum, ← hframes, bindingCount, ← Array.foldl_toList, List.sum_eq_foldl, List.foldl_map]

theorem mem_places {b : Binding} (hb : h.local? frame name = some b) :
    (frame, name) ∈ h.places := by
  obtain ⟨fr, hfr, hname⟩ := Option.bind_eq_some_iff.1 hb
  obtain ⟨before, after, hbindings, -⟩ := List.lookup_eq_some_iff.1 hname
  refine List.mem_flatMap.2 ⟨(fr, frame), ?_, ?_⟩
  · exact List.mem_zipIdx_iff_getElem?.2 (by simpa using hfr)
  · simp [hbindings]

theorem forwarded_cases {next : String} {f : FrameId} {mark : Option PromiseId}
    (hv : h.verdict roots name frame level = .forwarded next f mark) :
    (∃ b, h.local? frame name = some b) ∧
      (mark = none ∨ (h.marked mark).unmarked < h.unmarked) := by
  obtain ⟨p, r, hb, hr, -, hu, -, -, rfl | ⟨rfl, -⟩⟩ := verdict_forwarded hv
  · refine ⟨⟨_, hb⟩, .inr ?_⟩
    have hlist : h.promises.toList[p]? = some r := by simpa using hr
    simpa [marked, setState, unmarked] using
      countP_modify_lt (p := fun r : Promise => r.state != .underEvaluation)
        (f := fun r => { r with state := .underEvaluation }) hlist (by simpa using hu) (by simp)
  · exact ⟨⟨_, hb⟩, .inl rfl⟩

theorem walk_succ_deep (roots : List Handle) (n : Nat) (h : Heap) (name : String)
    (frame : FrameId) :
    walk roots (n + 1) h name frame 1 =
      match h.verdict roots name frame 1 with
      | .settled b => some (b, h)
      | .forwarded next f mark =>
        (walk roots n (h.marked mark) next f 1).map fun r => (r.1, h) := by
  rw [walk_succ]
  split
  · rfl
  · rw [walk_deep (Nat.succ_ne_zero 1) Nat.one_ne_zero]

/-- A place to which a walk of some length does not come back: fewer promises were marked there,
or a walk of this length does not end from there. -/
def Behind (roots : List Handle) (n : Nat) (h : Heap) (v : Nat × FrameId × String) : Prop :=
  h.unmarked < v.1 ∨ (v.1 = h.unmarked ∧ walk roots n h v.2.2 v.2.1 1 = none)

theorem Behind.pred {v : Nat × FrameId × String} (hv : Behind roots (n + 1) h v) :
    Behind roots n h v := by
  refine hv.imp id fun hd => ⟨hd.1, ?_⟩
  cases hn : walk roots n h v.2.2 v.2.1 1 with
  | none => rfl
  | some a => simp [walk_mono hn (Nat.le_succ n)] at hd

theorem Behind.marked {v : Nat × FrameId × String} {mark : Option PromiseId}
    (hv : Behind roots n h v) (hmark : mark = none ∨ (h.marked mark).unmarked < h.unmarked) :
    Behind roots n (h.marked mark) v := by
  rcases hmark with rfl | hlt
  · exact hv
  · rcases hv with hv | ⟨hv, -⟩
    · exact .inl (Nat.lt_trans hlt hv)
    · exact .inl (hv ▸ hlt)

/-- A walk that ends starts from a new place. -/
theorem notMem_of_behind {a : Bool × Heap} {visited : List (Nat × FrameId × String)}
    (hw : walk roots n h name frame 1 = some a) (hbehind : ∀ v ∈ visited, Behind roots n h v) :
    (h.unmarked, frame, name) ∉ visited := by
  intro hmem
  rcases hbehind _ hmem with hlt | ⟨-, hnone⟩
  · exact absurd hlt (Nat.lt_irrefl _)
  · simp [hw] at hnone

/-- The place that a step leaves is behind the walk that goes on from there, and the others stay
behind. -/
theorem behind_of_step {visited : List (Nat × FrameId × String)} {mark : Option PromiseId}
    (hbehind : ∀ v ∈ visited, Behind roots (n + 1) h v) (hn : walk roots n h name frame 1 = none)
    (hmark : mark = none ∨ (h.marked mark).unmarked < h.unmarked) :
    ∀ v ∈ (h.unmarked, frame, name) :: visited, Behind roots n (h.marked mark) v := by
  intro v hmem
  rcases List.mem_cons.1 hmem with rfl | hmem
  · exact Behind.marked (.inr ⟨rfl, hn⟩) hmark
  · exact (hbehind v hmem).pred.marked hmark

/-- A walk that ends takes at most one step for every place it has not been at, and for every
number of marks that are left: it would go on forever if it came back to a place with the same
marks. -/
theorem walk_of_behind {a : Bool × Heap} {bound : Nat} {places : List (FrameId × String)}
    (hw : walk roots n h name frame 1 = some a)
    (hplaces : ∀ f name b, h.local? f name = some b → (f, name) ∈ places)
    (hbound : h.unmarked ≤ bound) (visited : List (Nat × FrameId × String))
    (hnodup : visited.Nodup) (hsub : visited ⊆ List.range (bound + 1) ×ˢ places)
    (hbehind : ∀ v ∈ visited, Behind roots n h v) :
    walk roots ((bound + 1) * places.length - visited.length + 1) h name frame 1 = some a := by
  -- the induction is on a walk that ends; a shorter one that ends as well serves as it is
  induction n generalizing h name frame a visited with
  | zero => cases hw
  | succ n ih =>
    cases hn : walk roots n h name frame 1 with
    | some a' =>
      have hsame : a' = a := by simpa [hw, eq_comm] using walk_mono hn (Nat.le_succ n)
      subst hsame
      exact ih hn hplaces hbound visited hnodup hsub fun v hv => (hbehind v hv).pred
    | none =>
      have hnew := notMem_of_behind hw hbehind
      rw [walk_succ_deep] at hw ⊢
      cases hv : h.verdict roots name frame 1 with
      | settled b => simpa [hv] using hw
      | forwarded next f mark =>
        simp only [hv] at hw
        obtain ⟨r, hr, rfl⟩ := Option.map_eq_some_iff.1 hw
        obtain ⟨⟨b, hb⟩, hmark⟩ := forwarded_cases hv
        have hmem : (h.unmarked, frame, name) ∈ List.range (bound + 1) ×ˢ places :=
          List.mem_product.2 ⟨List.mem_range.2 (by omega), hplaces frame name b hb⟩
        have hnodup' : ((h.unmarked, frame, name) :: visited).Nodup :=
          List.nodup_cons.2 ⟨hnew, hnodup⟩
        have hsub' : (h.unmarked, frame, name) :: visited ⊆
            List.range (bound + 1) ×ˢ places := List.cons_subset.2 ⟨hmem, hsub⟩
        have hle : (h.marked mark).unmarked ≤ bound := by
          rcases hmark with rfl | hlt
          · exact hbound
          · omega
        have hrest := ih hr
          (fun f name b hb => hplaces f name b (by rwa [local?_congr (frames_marked h mark)] at hb))
          hle _ hnodup' hsub' (behind_of_step hbehind hn hmark)
        have hlen := (List.subperm_of_subset hnodup' hsub').length_le
        simp only [List.length_cons, List.length_product, List.length_range] at hlen
        have hstep : (bound + 1) * places.length - visited.length =
            (bound + 1) * places.length - (visited.length + 1) + 1 := by omega
        rw [hstep]
        exact Option.map_eq_some_iff.2 ⟨r, hrest, rfl⟩

theorem walk_within_bound {a : Bool × Heap} (hw : walk roots n h name frame level = some a) :
    walk roots h.walkBound h name frame level = some a := by
  obtain ⟨n, rfl⟩ : ∃ k, n = k + 1 := by
    cases n with
    | zero => cases hw
    | succ k => exact ⟨k, rfl⟩
  have hroom : (h.promises.size + 1) * h.places.length + 1 + 1 ≤ h.walkBound := by
    rw [walkBound, length_places, Nat.mul_add]
    omega
  -- the first step is taken apart: it is at a level of its own
  refine walk_mono ?_ hroom
  rw [walk_succ] at hw ⊢
  split at hw
  · exact hw
  · rename_i next f mark hv
    obtain ⟨r, hr, rfl⟩ := Option.map_eq_some_iff.1 hw
    rw [walk_deep (Nat.succ_ne_zero level) Nat.one_ne_zero] at hr ⊢
    have hplaces : ∀ f name b, (h.marked mark).local? f name = some b → (f, name) ∈ h.places :=
      fun f name b hb => mem_places (by rwa [local?_congr (frames_marked h mark)] at hb)
    have hbound : (h.marked mark).unmarked ≤ h.promises.size := by
      simpa using unmarked_le (h.marked mark)
    have hrest := walk_of_behind hr hplaces hbound [] List.nodup_nil (by simp) (by simp)
    exact Option.map_eq_some_iff.2 ⟨r, hrest, rfl⟩

end Heap

end LazyVectors
