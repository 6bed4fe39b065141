import LazyVectors.Call
/-!
How a heap may change. A heap ages when promises that waited get values, names of frames get
values, and frames and promises are added; nothing else happens to it while an expression is
evaluated, except that promises are marked as under evaluation and the marks are taken back.
-/

set_option autoImplicit false

namespace LazyVectors

namespace Promise

/-- A promise has been evaluated exactly when it has a value. -/
def Settled (r : Promise) : Prop := r.state = .evaluated ↔ r.value.isSome = true

def Waiting (r : Promise) : Prop := r.state ≠ .evaluated ∧ r.state ≠ .underEvaluation

def fulfilled (r : Promise) (x : Value) : Promise :=
  { r with state := .evaluated, value := some x, pinned := false }

instance (r : Promise) : Decidable r.Settled :=
  inferInstanceAs (Decidable (r.state = .evaluated ↔ r.value.isSome = true))

theorem settled_fulfilled (r : Promise) (x : Value) : (r.fulfilled x).Settled := by
  simp [Settled, fulfilled]

theorem Settled.ne_evaluated {r : Promise} (h : r.Settled) (hv : r.value = none) :
    r.state ≠ .evaluated := by
  intro he
  have hsome := h.1 he
  simp [hv] at hsome

theorem Settled.waiting {r : Promise} (h : r.Settled) (hv : r.value = none)
    (hu : r.state ≠ .underEvaluation) : r.Waiting :=
  ⟨h.ne_evaluated hv, hu⟩

theorem Settled.value_of_ne {r : Promise} (h : r.Settled) (he : r.state ≠ .evaluated) :
    r.value = none := by
  have hnone : ¬r.value.isSome = true := fun hs => he (h.2 hs)
  simpa using hnone

end Promise

namespace Heap

variable {h h₁ h₂ h₃ : Heap} {p q : PromiseId} {f g : FrameId} {name other : String}

@[simp] theorem frames_setState (h : Heap) (p : PromiseId) (s : PromiseState) :
    (h.setState p s).frames = h.frames := rfl

@[simp] theorem promises_define (h : Heap) (f : FrameId) (name : String) (b : Binding) :
    (h.define f name b).promises = h.promises := rfl

@[simp] theorem promises_pushFrame (h : Heap) (fr : Frame) :
    (h.pushFrame fr).2.promises = h.promises := rfl

@[simp] theorem size_frames_define (h : Heap) (f : FrameId) (name : String) (b : Binding) :
    (h.define f name b).frames.size = h.frames.size := by
  simp [define]

@[simp] theorem size_frames_pushFrame (h : Heap) (fr : Frame) :
    (h.pushFrame fr).2.frames.size = h.frames.size + 1 := by
  simp [pushFrame]

theorem frames_define_of_ne (hgf : g ≠ f) (h : Heap) (name : String) (b : Binding) :
    (h.define f name b).frames[g]? = h.frames[g]? := by
  simp [define, Array.getElem?_modify, hgf.symm]

theorem local?_congr (hf : h₁.frames = h₂.frames) (f : FrameId) (name : String) :
    h₁.local? f name = h₂.local? f name := by
  simp [local?, hf]

theorem getElem?_setState (h : Heap) (p q : PromiseId) (s : PromiseState) :
    (h.setState p s).promises[q]? =
      if p = q then h.promises[q]?.map fun r => { r with state := s } else h.promises[q]? :=
  Array.getElem?_modify

theorem getElem?_setState_of_some {h : Heap} {q : PromiseId} {r : Promise}
    (hr : h.promises[q]? = some r) (p : PromiseId) (s : PromiseState) :
    (h.setState p s).promises[q]? = some { r with state := if p = q then s else r.state } := by
  rw [getElem?_setState, hr]
  split <;> rfl

theorem getElem?_fulfil (h : Heap) (p q : PromiseId) (x : Value) :
    (h.fulfil p x).promises[q]? =
      if p = q then h.promises[q]?.map (·.fulfilled x) else h.promises[q]? :=
  Array.getElem?_modify

theorem getElem?_pushPromise (h : Heap) (r : Promise) (q : PromiseId) :
    (h.pushPromise r).2.promises[q]? =
      if q = h.promises.size then some r else h.promises[q]? := by
  simp [pushPromise, Array.getElem?_push]

theorem local?_define (h : Heap) (f g : FrameId) (name other : String) (b : Binding) :
    (h.define f name b).local? g other =
      if f = g ∧ g < h.frames.size ∧ other = name then some b else h.local? g other := by
  unfold local? define
  rw [Array.getElem?_modify]
  by_cases hfg : f = g
  · by_cases hg : g < h.frames.size
    · simp [hfg, hg, Named.lookup_put]
    · simp [hg]
  · simp [hfg]

theorem local?_pushFrame_of_lt (hf : f < h.frames.size) (fr : Frame) :
    (h.pushFrame fr).2.local? f name = h.local? f name := by
  simp [local?, pushFrame, Array.getElem?_push, Nat.ne_of_lt hf]

/-- Every promise has been evaluated exactly when it has a value. -/
def Settled (h : Heap) : Prop :=
  ∀ (p : PromiseId) (r : Promise), h.promises[p]? = some r → r.Settled

theorem settled_iff : h.Settled ↔ ∀ r ∈ h.promises, r.Settled := by
  refine ⟨fun hs r hr => ?_, fun hs p r hr => hs r (Array.mem_of_getElem? hr)⟩
  obtain ⟨p, hp⟩ := Array.getElem?_of_mem hr
  exact hs p r hp

instance (h : Heap) : Decidable h.Settled := decidable_of_iff _ settled_iff.symm

/-- What a heap turns into: promises that waited get values, frames and promises are added, and
names of the frames there were get values. Other promises and bindings stay. -/
structure Ages (h h' : Heap) : Prop where
  promise : ∀ {p : PromiseId} {r : Promise}, h.promises[p]? = some r →
    h'.promises[p]? = some r ∨ (r.Waiting ∧ ∃ x, h'.promises[p]? = some (r.fulfilled x))
  added : ∀ {p : PromiseId} {r : Promise}, h.promises[p]? = none → h'.promises[p]? = some r →
    r.Settled ∧ r.state ≠ .underEvaluation
  frames : h.frames.size ≤ h'.frames.size
  binding : ∀ {f : FrameId} {name : String} {b : Binding}, f < h.frames.size →
    h'.local? f name = some b → h.local? f name = some b ∨ ∃ x, b = .value x

namespace Ages

theorem refl (h : Heap) : h.Ages h where
  promise hr := .inl hr
  added hn hr := by simp [hn] at hr
  frames := Nat.le_refl _
  binding _ hb := .inl hb

theorem trans (h₁₂ : h₁.Ages h₂) (h₂₃ : h₂.Ages h₃) : h₁.Ages h₃ where
  promise hr := by
    rcases h₁₂.promise hr with h2 | ⟨hw, x, h2⟩
    · exact h₂₃.promise h2
    · rcases h₂₃.promise h2 with h3 | ⟨hw', -⟩
      · exact .inr ⟨hw, x, h3⟩
      · exact absurd rfl hw'.1
  added {p r} hn hr := by
    cases h2 : h₂.promises[p]? with
    | none => exact h₂₃.added h2 hr
    | some r₂ =>
      have hfresh := h₁₂.added hn h2
      rcases h₂₃.promise h2 with h3 | ⟨-, x, h3⟩
      · rw [h3] at hr
        cases hr
        exact hfresh
      · rw [h3] at hr
        cases hr
        exact ⟨Promise.settled_fulfilled r₂ x, by simp [Promise.fulfilled]⟩
  frames := Nat.le_trans h₁₂.frames h₂₃.frames
  binding hf hb := by
    rcases h₂₃.binding (Nat.lt_of_lt_of_le hf h₁₂.frames) hb with hb | hx
    · exact h₁₂.binding hf hb
    · exact .inr hx

theorem settled (ha : h₁.Ages h₂) (hs : h₁.Settled) : h₂.Settled := by
  intro p r hr
  cases h1 : h₁.promises[p]? with
  | none => exact (ha.added h1 hr).1
  | some r₁ =>
    rcases ha.promise h1 with h2 | ⟨-, x, h2⟩
    · rw [h2] at hr
      cases hr
      exact hs p r h1
    · rw [h2] at hr
      cases hr
      exact Promise.settled_fulfilled r₁ x

theorem of_underEvaluation (ha : h₁.Ages h₂) {r : Promise} (hr : h₂.promises[p]? = some r)
    (hu : r.state = .underEvaluation) : h₁.promises[p]? = some r := by
  cases h1 : h₁.promises[p]? with
  | none => exact absurd hu (ha.added h1 hr).2
  | some r₁ =>
    rcases ha.promise h1 with h2 | ⟨-, x, h2⟩
    · rw [← h2, hr]
    · rw [h2] at hr
      cases hr
      simp [Promise.fulfilled] at hu

theorem underEvaluation (ha : h₁.Ages h₂) {r : Promise} (hr : h₁.promises[p]? = some r)
    (hu : r.state = .underEvaluation) : h₂.promises[p]? = some r := by
  rcases ha.promise hr with h2 | ⟨hw, -⟩
  · exact h2
  · exact absurd hu hw.2

theorem evaluated (ha : h₁.Ages h₂) {r : Promise} (hr : h₁.promises[p]? = some r)
    (he : r.state = .evaluated) : h₂.promises[p]? = some r := by
  rcases ha.promise hr with h2 | ⟨hw, -⟩
  · exact h2
  · exact absurd he hw.1

theorem assign (ha : h₁.Ages h) (f : FrameId) (name : String) (x : Value) :
    h₁.Ages (h.define f name (.value x)) := by
  refine ha.trans ⟨fun hr => .inl hr, fun hn hr => ?_, by simp, fun hg hb => ?_⟩
  · simp [hn] at hr
  · rw [local?_define] at hb
    split at hb
    · exact .inr ⟨x, (Option.some.inj hb).symm⟩
    · exact .inl hb

theorem pushFrame (h : Heap) (fr : Frame) : h.Ages (h.pushFrame fr).2 where
  promise hr := .inl hr
  added hn hr := by simp [hn] at hr
  frames := by simp
  binding hf hb := .inl (by rwa [local?_pushFrame_of_lt hf] at hb)

theorem pushPromise {r : Promise} (hs : r.Settled) (hu : r.state ≠ .underEvaluation) (h : Heap) :
    h.Ages (h.pushPromise r).2 where
  promise {q r'} hr := by
    have hq : q ≠ h.promises.size := Nat.ne_of_lt (Array.getElem?_eq_some_iff.1 hr).1
    exact .inl (by rw [getElem?_pushPromise, if_neg hq, hr])
  added {q r'} hn hr := by
    rw [getElem?_pushPromise] at hr
    split at hr
    · cases hr
      exact ⟨hs, hu⟩
    · simp [hn] at hr
  frames := Nat.le_refl _
  binding _ hb := .inl hb

theorem define_added (ha : h₁.Ages h) (hf : h₁.frames.size ≤ f) (name : String) (b : Binding) :
    h₁.Ages (h.define f name b) where
  promise hr := ha.promise hr
  added hn hr := ha.added hn hr
  frames := by simpa using ha.frames
  binding {g _ _} hg hb := by
    have hne : f ≠ g := Nat.ne_of_gt (Nat.lt_of_lt_of_le hg hf)
    rw [local?_define] at hb
    exact ha.binding hg (by simpa [hne] using hb)

theorem settled_promiseFor {caller callee : FrameId} {supplied fallback : Option Expr}
    {r : Promise} (hr : Call.promiseFor caller callee supplied fallback = some r) :
    r.Settled ∧ r.state ≠ .underEvaluation := by
  unfold Call.promiseFor at hr
  split at hr <;> cases hr <;>
    simp [Promise.Settled, Promise.evaluated, Promise.argument, Promise.default]

theorem bindFormals {caller callee : FrameId} (hcallee : h₁.frames.size ≤ callee)
    (formals : List (Formal × Option Expr)) (ha : h₁.Ages h) :
    h₁.Ages (Call.bindFormals caller callee h formals) := by
  induction formals generalizing h with
  | nil => exact ha
  | cons x rest ih =>
    unfold Call.bindFormals
    split
    · rename_i r hr
      obtain ⟨hs, hu⟩ := settled_promiseFor hr
      exact ih ((ha.trans (pushPromise hs hu h)).define_added hcallee _ _)
    · exact ih (ha.define_added hcallee _ _)

theorem bindArguments {fn : Function} {c : Closure} {args : List (Arg Expr)}
    {caller callee : FrameId} (hb : Call.bindArguments fn c args caller h = .ok (callee, h₁)) :
    h.Ages h₁ := by
  obtain ⟨supplied, -, hrest⟩ := bind_eq_ok.1 hb
  cases hrest
  exact bindFormals (Nat.le_refl _) _ (pushFrame h _)

/-- A promise that waited is marked, the heap ages, and then the promise gets its value or is put
back as it was. Seen from before the mark the heap has only aged. -/
theorem of_entered {r : Promise} (hr : h₁.promises[p]? = some r) (hw : r.Waiting)
    (ha : (h₁.setState p .underEvaluation).Ages h₂) (hframes : h₃.frames = h₂.frames)
    (hother : ∀ q, q ≠ p → h₃.promises[q]? = h₂.promises[q]?)
    (hself : h₃.promises[p]? = some r ∨ ∃ x, h₃.promises[p]? = some (r.fulfilled x)) :
    h₁.Ages h₃ where
  promise {q r'} hr' := by
    by_cases hq : q = p
    · subst q
      rw [hr] at hr'
      cases hr'
      exact hself.imp id fun hx => ⟨hw, hx⟩
    · rw [hother q hq]
      refine ha.promise ?_
      rwa [getElem?_setState, if_neg fun h => hq h.symm]
  added {q r'} hn hr' := by
    have hq : q ≠ p := by
      rintro rfl
      simp [hn] at hr
    refine ha.added ?_ (by rwa [hother q hq] at hr')
    rwa [getElem?_setState, if_neg fun h => hq h.symm]
  frames := by
    rw [hframes]
    exact ha.frames
  binding hf hb := by
    rw [local?_congr hframes] at hb
    exact ha.binding hf hb

end Ages

theorem getElem?_entered {r : Promise} (hr : h₁.promises[p]? = some r)
    (ha : (h₁.setState p .underEvaluation).Ages h₂) :
    h₂.promises[p]? = some { r with state := .underEvaluation } :=
  ha.underEvaluation (by simp [getElem?_setState, hr]) rfl

theorem Ages.of_restored {r : Promise} (hr : h₁.promises[p]? = some r) (hw : r.Waiting)
    (ha : (h₁.setState p .underEvaluation).Ages h₂) : h₁.Ages (h₂.setState p r.state) := by
  refine of_entered hr hw ha rfl (fun q hq => ?_) (.inl ?_)
  · rw [getElem?_setState, if_neg fun h => hq h.symm]
  · simp [getElem?_setState, getElem?_entered hr ha]

theorem Ages.of_fulfilled {r : Promise} (hr : h₁.promises[p]? = some r) (hw : r.Waiting)
    (ha : (h₁.setState p .underEvaluation).Ages h₂) (x : Value) : h₁.Ages (h₂.fulfil p x) := by
  refine of_entered hr hw ha rfl (fun q hq => ?_) (.inr ⟨x, ?_⟩)
  · rw [getElem?_fulfil, if_neg fun h => hq h.symm]
  · simp [getElem?_fulfil, getElem?_entered hr ha, Promise.fulfilled]

theorem Settled.setState (hs : h.Settled) {r : Promise} (hr : h.promises[p]? = some r)
    (hv : r.value = none) {s : PromiseState} (hne : s ≠ .evaluated) :
    (h.setState p s).Settled := by
  intro q r' hr'
  rw [getElem?_setState] at hr'
  split at hr'
  · subst q
    rw [hr] at hr'
    cases hr'
    simp [Promise.Settled, hv, hne]
  · exact hs q r' hr'

end Heap

end LazyVectors
