import LazyVectors.Proofs.PromiseStates
import LazyVectors.Proofs.Reachability
/-!
The frames of supplied arguments. A promise for a supplied argument holds its frame until it has
a value, whatever is done in the meantime, and then holds nothing but the value and its
expression. All that may be done to a promise is said once, by `Promise.Turns`.
-/

set_option autoImplicit false

namespace LazyVectors

variable {ω μ : Type} [Foreign ω] [Method μ]

inductive Promise.Made : Promise → Prop where
  | argument (e : Expr) (caller : FrameId) : Made (.argument e caller)
  | default (e : Expr) (callee : FrameId) : Made (.default e callee)
  | evaluated (e : Expr) (x : Value) : Made (.evaluated e x)

/-- What a heap becomes, at any point of a run in which frames, promises and functions are made,
names are bound, and promises are forced with anything that evaluates expressions: it may succeed or
fail, and it may do all of this in turn. Which handles are held or dropped in the run makes no
difference to the heap. -/
inductive Heap.Becomes : Heap → Heap → Prop where
  | refl (h : Heap) : Becomes h h
  | frame {h h₁ : Heap} (origin : Origin) (parent : Option FrameId) :
    Becomes h h₁ → Becomes h (h₁.pushFrame ⟨origin, parent, []⟩).2
  | promise {h h₁ : Heap} {r : Promise} : r.Made → Becomes h h₁ → Becomes h (h₁.pushPromise r).2
  | function {h h₁ : Heap} (f : Function) :
    Becomes h h₁ → Becomes h { h₁ with functions := h₁.functions.push f }
  | define {h h₁ : Heap} (f : FrameId) (name : String) (b : Binding) :
    Becomes h h₁ → Becomes h (h₁.define f name b)
  /-- The expression of a promise is about to be evaluated. -/
  | enter {h h₁ : Heap} {p : PromiseId} {r : Promise} : Becomes h h₁ → h₁.promises[p]? = some r →
    r.value = none → r.state ≠ .underEvaluation → Becomes h (h₁.setState p .underEvaluation)
  /-- A promise was forced, with success or without. -/
  | forced {ω μ : Type} [Foreign ω] [Method μ] {h : Heap} {w : World ω μ} {ev : Evaluator ω μ}
    (held : List Handle) (p : PromiseId) :
    (∀ held e f (w : World ω μ), Becomes w.heap ((ev held e f).after w).heap) →
    Becomes h w.heap → Becomes h ((Eval.force ev held p).after w).heap

namespace Promise

/-- What may become of a promise: it stays as it is, or, without a value and not under evaluation,
it is marked or gets a value. -/
inductive Turns (r : Promise) : Promise → Prop where
  | same : Turns r r
  | entered : r.value = none → r.state ≠ .underEvaluation →
    Turns r { r with state := .underEvaluation }
  | fulfilled (x : Value) : r.value = none → r.state ≠ .underEvaluation → Turns r (r.fulfilled x)

variable {r r₁ r₂ : Promise}

theorem Turns.trans (h₁ : r.Turns r₁) (h₂ : r₁.Turns r₂) : r.Turns r₂ := by
  cases h₁ with
  | same => exact h₂
  | entered hv hu =>
    cases h₂ with
    | same => exact .entered hv hu
    | entered _ hu' => exact absurd rfl hu'
    | fulfilled _ _ hu' => exact absurd rfl hu'
  | fulfilled x hv hu =>
    cases h₂ with
    | same => exact .fulfilled x hv hu
    | entered hv' => cases hv'
    | fulfilled _ hv' => cases hv'

theorem Turns.eq_of_underEvaluation (h : r.Turns r₁) (hu : r.state = .underEvaluation) :
    r₁ = r := by
  cases h with
  | same => rfl
  | entered _ hu' => exact absurd hu hu'
  | fulfilled _ _ hu' => exact absurd hu hu'

/-- A promise for a supplied argument is pinned to its frame and without a value, or has a value and
is not pinned any more. -/
theorem Turns.of_argument {e : Expr} {f : FrameId} (h : (argument e f).Turns r) :
    r.expr = e ∧ r.frame = some f ∧
      (r.state ≠ .evaluated ∧ r.value = none ∧ r.pinned = true ∨
        ∃ x, r.state = .evaluated ∧ r.value = some x ∧ r.pinned = false) := by
  cases h with
  | same => exact ⟨rfl, rfl, .inl ⟨by simp [argument], rfl, rfl⟩⟩
  | entered => exact ⟨rfl, rfl, .inl ⟨by simp, rfl, rfl⟩⟩
  | fulfilled x => exact ⟨rfl, rfl, .inr ⟨x, rfl, rfl, rfl⟩⟩

end Promise

namespace Heap

variable {h h₁ h₂ : Heap} {p q : PromiseId} {r : Promise} {f : FrameId}

/-- Every promise of a heap is there later on, and became what a promise may become. -/
def Turns (h h₁ : Heap) : Prop :=
  ∀ (q : PromiseId) (r : Promise), h.promises[q]? = some r →
    ∃ r₁, h₁.promises[q]? = some r₁ ∧ r.Turns r₁

theorem Turns.trans (h₀₁ : h.Turns h₁) (h₁₂ : h₁.Turns h₂) : h.Turns h₂ := by
  intro q r hr
  obtain ⟨r₁, hr₁, hturns₁⟩ := h₀₁ q r hr
  obtain ⟨r₂, hr₂, hturns₂⟩ := h₁₂ q r₁ hr₁
  exact ⟨r₂, hr₂, hturns₁.trans hturns₂⟩

theorem Turns.of_promises (hsame : h₁.promises = h.promises) : h.Turns h₁ :=
  fun q r hr => ⟨r, by rw [hsame, hr], .same⟩

theorem turns_pushPromise (h : Heap) (r : Promise) : h.Turns (h.pushPromise r).2 := by
  intro q r₁ hr₁
  have hq : q ≠ h.promises.size := Nat.ne_of_lt (Array.getElem?_eq_some_iff.1 hr₁).1
  exact ⟨r₁, by rw [getElem?_pushPromise, if_neg hq, hr₁], .same⟩

theorem turns_entered (hr : h.promises[p]? = some r) (hv : r.value = none)
    (hu : r.state ≠ .underEvaluation) : h.Turns (h.setState p .underEvaluation) := by
  intro q r₁ hr₁
  rw [getElem?_setState]
  split
  · subst q
    rw [hr] at hr₁
    cases hr₁
    exact ⟨_, by rw [hr]; rfl, .entered hv hu⟩
  · exact ⟨r₁, hr₁, .same⟩

theorem Turns.leave (hr : h.promises[p]? = some r) (hv : r.value = none)
    (hu : r.state ≠ .underEvaluation) (hturns : (h.setState p .underEvaluation).Turns h₁)
    (hother : ∀ q, q ≠ p → h₂.promises[q]? = h₁.promises[q]?)
    (hself : h₁.promises[p]? = some { r with state := .underEvaluation } →
      h₂.promises[p]? = some r ∨ ∃ x, h₂.promises[p]? = some (r.fulfilled x)) :
    h.Turns h₂ := by
  intro q r₀ hr₀
  by_cases hq : q = p
  · subst q
    rw [hr] at hr₀
    cases hr₀
    obtain ⟨r₁, hr₁, hmarked⟩ := hturns p { r with state := .underEvaluation }
      (by simp [getElem?_setState, hr])
    rw [hmarked.eq_of_underEvaluation rfl] at hr₁
    rcases hself hr₁ with hback | ⟨x, hx⟩
    · exact ⟨r, hback, .same⟩
    · exact ⟨_, hx, .fulfilled x hv hu⟩
  · rw [hother q hq]
    exact hturns q r₀ (by rwa [getElem?_setState, if_neg fun heq => hq heq.symm])

theorem turns_force {ev : Evaluator ω μ} {w : World ω μ}
    (hev : ∀ held e f (w : World ω μ), w.heap.Turns ((ev held e f).after w).heap)
    (held : List Handle) (p : PromiseId) :
    w.heap.Turns ((Eval.force ev held p).after w).heap := by
  rcases Eval.force_cases held p w with ⟨r, x, -, -, hforce⟩ | ⟨e, hforce⟩ |
    ⟨r, f, hr, hv, hu, -, hforce⟩
  · rw [Run.after_ok (hforce ev)]
    exact .of_promises rfl
  · rw [Run.after_error (hforce ev)]
    exact .of_promises rfl
  · have hinside := hev (.promise p :: .frame f :: held) r.expr f (w.entered p)
    have hforce := hforce ev
    cases hres : ev (.promise p :: .frame f :: held) r.expr f (w.entered p) with
    | ok x w₁ =>
      rw [hres] at hforce
      rw [Run.after_ok hres] at hinside
      rw [Run.after_ok hforce]
      -- the mark is still there, so this value is the first one
      refine Turns.leave hr hv hu hinside (fun q hq => ?_) fun hmarked => .inr ⟨x, ?_⟩
      · rw [getElem?_fulfil, if_neg fun heq => hq heq.symm]
      · simp [getElem?_fulfil, hmarked, Promise.fulfilled]
    | error e w₁ =>
      rw [hres] at hforce
      rw [Run.after_error hres] at hinside
      rw [Run.after_error hforce]
      -- the mark is still there, and taking it back gives the promise as it was
      refine Turns.leave hr hv hu hinside (fun q hq => ?_) fun hmarked => .inl ?_
      · rw [getElem?_setState, if_neg fun heq => hq heq.symm]
      · simp [getElem?_setState, hmarked]

theorem Becomes.turns (hb : h.Becomes h₁) : h.Turns h₁ := by
  induction hb with
  | refl h => exact .of_promises rfl
  | frame origin parent _ ih => exact ih.trans (.of_promises rfl)
  | promise _ _ ih => exact ih.trans (turns_pushPromise _ _)
  | function f _ ih => exact ih.trans (.of_promises rfl)
  | define f name b _ ih => exact ih.trans (.of_promises rfl)
  | enter _ hr hv hu ih => exact ih.trans (turns_entered hr hv hu)
  | forced held p _ _ hev ih => exact ih.trans (turns_force hev held p)

theorem Becomes.bindFormals {caller callee : FrameId} (formals : List (Formal × Option Expr))
    (hb : h.Becomes h₁) : h.Becomes (Call.bindFormals caller callee h₁ formals) := by
  induction formals generalizing h₁ with
  | nil => exact hb
  | cons formal rest ih =>
    unfold Call.bindFormals
    split
    · rename_i r hr
      have hmade : r.Made := by
        unfold Call.promiseFor at hr
        split at hr <;> cases hr <;> constructor
      exact ih ((hb.promise hmade).define _ _ _)
    · exact ih (hb.define _ _ _)

theorem kept_becomes (h : Heap) : Kept h.Becomes where
  assign f name x hb := hb.define f name _
  call hb _ hcall := by
    obtain ⟨supplied, -, hrest⟩ := bind_eq_ok.1 hcall
    cases hrest
    exact (hb.frame _ _).bindFormals _

end Heap

theorem eval_becomes [Memory] (n : Nat) (held : List Handle) (e : Expr) (f : FrameId)
    (w : World ω μ) : w.heap.Becomes ((eval n held e f).after w).heap := by
  have hkeeps : ∀ h held e f,
      Run.Keeps (Heap.Becomes h) (eval n held e f : Run ω μ Value) := by
    induction n with
    | zero => exact fun h held e f => Run.Keeps.throw _
    | succ n ih =>
      intro h held e f
      refine Eval.step_alike (Heap.kept_becomes h) (ih h) (fun held p w hw => ⟨rfl, ?_⟩)
        held e f
      exact hw.forced held p fun held e f w => (ih w.heap held e f w (.refl _)).2
  exact (hkeeps w.heap held e f w (.refl _)).2

namespace Heap

variable {h : Heap} {p : PromiseId} {r : Promise} {f : FrameId}

theorem frameOf?_of_pinned {roots : List Handle} (hr : h.promises[p]? = some r)
    (hframe : r.frame = some f) (hpinned : r.pinned = true)
    (hreached : h.leadsTo roots (.promise p) = true) :
    h.alive roots f = true ∧ h.frameOf? roots r = some f := by
  have hholds : .frame f ∈ h.successors (.promise p) := by
    simp [successors, hr, Promise.handles, hframe, hpinned]
  have halive : h.alive roots f = true := alive_of_leadsTo (leadsTo_step hreached hholds)
  exact ⟨halive, by simp [frameOf?, hframe, halive]⟩

/-- A promise that has been evaluated to a value and has given up its own hold on its frame: it
leads to its expression and its value only, so that holding it keeps alive what holding these
would. -/
structure Released (h : Heap) (p : PromiseId) (e : Expr) (x : Value) : Prop where
  promise : ∃ r, h.promises[p]? = some r ∧ r.state = .evaluated ∧ r.value = some x
  successors : h.successors (.promise p) = e.handles ++ x.handles
  alive : ∀ roots g, h.alive (.promise p :: roots) g = h.alive (e.handles ++ x.handles ++ roots) g

theorem released_of_not_pinned {x : Value} (hr : h.promises[p]? = some r)
    (hdone : r.state = .evaluated) (hx : r.value = some x) (hpinned : r.pinned = false) :
    h.Released p r.expr x := by
  have hsuccessors : h.successors (.promise p) = r.expr.handles ++ x.handles := by
    simp [Heap.successors, hr, Promise.handles, hx, hpinned]
  exact ⟨⟨r, hr, hdone, hx⟩, hsuccessors, fun roots g => by rw [alive_promise_cons, hsuccessors]⟩

end Heap

namespace Eval

variable {w w' : World ω μ} {p : PromiseId} {r : Promise} {f : FrameId}

theorem force_of_pinned (hr : w.heap.promises[p]? = some r) (hframe : r.frame = some f)
    (hpinned : r.pinned = true) (hv : r.value = none) (ev : Evaluator ω μ) (held : List Handle) :
    force ev held p w = if r.state = .underEvaluation then .error (.failure .recursiveForce) w
      else leave p r.state (ev (.promise p :: .frame f :: held) r.expr f (w.entered p)) := by
  split
  · exact force_of_underEvaluation hr hv ‹_› ev held
  · refine force_entered hr hv ‹_› ?_ ev
    exact (Heap.frameOf?_of_pinned hr hframe hpinned
      (Heap.leadsTo_of_mem List.mem_cons_self)).2

theorem value_of_force {ev : Evaluator ω μ} {held : List Handle} {x : Value}
    (hev : ∀ held e f (w : World ω μ), w.heap.Turns ((ev held e f).after w).heap)
    (hok : force ev held p w = .ok x w') :
    ∃ r, w'.heap.promises[p]? = some r ∧ r.value = some x := by
  rcases force_cases held p w with ⟨r, y, hr, hy, h⟩ | ⟨e, h⟩ | ⟨r, f, hr, -, -, -, h⟩
  · rw [h ev] at hok
    cases hok
    exact ⟨r, hr, hy⟩
  · rw [h ev] at hok
    cases hok
  · have hinside := hev (.promise p :: .frame f :: held) r.expr f (w.entered p)
    rw [h ev] at hok
    cases hres : ev (.promise p :: .frame f :: held) r.expr f (w.entered p) with
    | error e w₁ =>
      rw [hres] at hok
      cases hok
    | ok y w₁ =>
      rw [hres] at hok
      rw [Run.after_ok hres] at hinside
      cases hok
      obtain ⟨r₁, hr₁, -⟩ := hinside p { r with state := .underEvaluation }
        (by simp [World.entered, Heap.getElem?_setState, hr])
      exact ⟨_, by simp [Heap.getElem?_fulfil, hr₁]; rfl, rfl⟩

end Eval

/-- A promise for a supplied argument never loses its frame. Whatever was done since it was made,
it either has not been evaluated: then its frame is alive while anything in use leads to the
promise, and forcing it evaluates the expression in this very frame, unless that is going on
already. Or it has been evaluated, and leads to its expression and its value only. The first force
that succeeds takes it from the one to the other. -/
theorem supplied_argument_holds_frame {h h' : Heap} {p : PromiseId} {e : Expr} {f : FrameId}
    (hmade : h.promises[p]? = some (.argument e f)) (hb : h.Becomes h') :
    ∃ r, h'.promises[p]? = some r ∧ r.expr = e ∧ r.frame = some f ∧
      (r.state ≠ .evaluated →
        (∀ roots, h'.leadsTo roots (.promise p) = true →
          h'.alive roots f = true ∧ h'.frameOf? roots r = some f) ∧
        ∀ (ev : Evaluator ω μ) (held : List Handle) (w : World ω μ), w.heap = h' →
          Eval.force ev held p w =
            if r.state = .underEvaluation then .error (.failure .recursiveForce) w
            else Eval.leave p r.state (ev (.promise p :: .frame f :: held) e f (w.entered p))) ∧
      (r.state = .evaluated → ∃ x, h'.Released p e x) ∧
      ∀ (ev : Evaluator ω μ) (held : List Handle) (w w' : World ω μ) (x : Value),
        (∀ held e f (w : World ω μ), w.heap.Becomes ((ev held e f).after w).heap) →
        w.heap = h' → Eval.force ev held p w = .ok x w' → w'.heap.Released p e x := by
  obtain ⟨r, hr, hturns⟩ := hb.turns p _ hmade
  obtain ⟨hexpr, hframe, hstate⟩ := hturns.of_argument
  refine ⟨r, hr, hexpr, hframe, fun hwaits => ?_, fun hdone => ?_,
    fun ev held w w' x hev hw hok => ?_⟩
  · rcases hstate with ⟨-, hv, hpinned⟩ | ⟨x, hdone, -, -⟩
    · refine ⟨fun roots => Heap.frameOf?_of_pinned hr hframe hpinned, fun ev held w hw => ?_⟩
      subst hw
      rw [Eval.force_of_pinned hr hframe hpinned hv, hexpr]
    · exact absurd hdone hwaits
  · rcases hstate with ⟨hwaits, -, -⟩ | ⟨x, -, hx, hpinned⟩
    · exact absurd hdone hwaits
    · exact ⟨x, hexpr ▸ Heap.released_of_not_pinned hr hdone hx hpinned⟩
  · subst hw
    have hafter := hb.forced held p hev
    rw [Run.after_ok hok] at hafter
    obtain ⟨r', hr', hturns'⟩ := hafter.turns p _ hmade
    obtain ⟨r'', hr'', hx⟩ := Eval.value_of_force (fun held e f w => (hev held e f w).turns) hok
    rw [hr'] at hr''
    cases hr''
    obtain ⟨hexpr', -, ⟨-, hv, -⟩ | ⟨y, hdone, -, hpinned⟩⟩ := hturns'.of_argument
    · rw [hv] at hx
      cases hx
    · exact hexpr' ▸ Heap.released_of_not_pinned hr' hdone hx hpinned

def heldByArgument (e : Expr) : World Records PlainMethod :=
  { World.ofSizes [] 5 5 3 with
    heap := (Heap.pushPromise
      { frames := #[⟨.top 0, none, []⟩, ⟨.labelled "caller", some 0, []⟩]
        functions := #[⟨none, [], .constant .null⟩] }
      (.argument e 1)).2 }

section

attribute [local instance] Memory.unbounded

/-- A first force fails, since "x" is not bound yet, and the frame stays alive; the second one
succeeds, and the frame is given up. -/
theorem supplied_argument_holds_frame_givenUp :
    let w₀ := heldByArgument (.lookup "x")
    let bound := w₀.heap.define 1 "x" (.value .null)
    let w := { w₀ with heap := bound }
    w₀.heap.promises[0]? = some (.argument (.lookup "x") 1) ∧
    Eval.force (eval 3) [] 0 w₀ = .error (.failure (.notFound "x")) w₀ ∧
    w₀.heap.Becomes bound ∧ bound.alive [.promise 0] 1 = true ∧
    ∃ w', Eval.force (eval 3) [] 0 w = .ok .null w' ∧ w'.heap.alive [.promise 0] 1 = false := by
  intro w₀ bound w
  have hfails : Eval.force (eval 3) [] 0 w₀ = .error (.failure (.notFound "x")) w₀ := rfl
  have htried : w₀.heap.Becomes w₀.heap := by
    have hforced := (Heap.Becomes.refl w₀.heap).forced [] 0
      (eval_becomes (ω := Records) (μ := PlainMethod) 3)
    rwa [Run.after_error hfails] at hforced
  have hbecomes : w₀.heap.Becomes bound := htried.define 1 "x" (.value .null)
  have hmade : w₀.heap.promises[0]? = some (.argument (.lookup "x") 1) := rfl
  obtain ⟨r, hr, -, -, hwaits, -, hforced⟩ :=
    supplied_argument_holds_frame (ω := Records) (μ := PlainMethod) hmade hbecomes
  have hstate : r.state ≠ .evaluated := by
    cases hr
    decide
  have hok : Eval.force (eval 3) [] 0 w = .ok .null { w₀ with heap := bound.fulfil 0 .null } := rfl
  have hreleased := hforced (eval 3) [] w _ .null (eval_becomes 3) rfl hok
  have hgone : (bound.fulfil 0 .null).alive [] 1 = false := by decide +kernel
  have halive := (hwaits hstate).1 [.promise 0] (Heap.leadsTo_of_mem List.mem_cons_self)
  exact ⟨hmade, hfails, hbecomes, halive.1, _, hok, (hreleased.alive [] 1).trans hgone⟩

/-- The value of a promise may lead back to its frame: after a force that makes a closure, the
promise alone keeps the frame of the closure alive. -/
theorem forced_argument_leads_to_frame :
    let w := heldByArgument (.function 0)
    w.heap.promises[0]? = some (.argument (.function 0) 1) ∧
    ∃ w', Eval.force (eval 3) [] 0 w = .ok (.closure ⟨0, 1, none⟩) w' ∧
      w'.heap.alive (w'.roots []) 1 = false ∧
      w'.heap.alive (w'.roots [.promise 0]) 1 = true := by
  refine ⟨rfl, _, rfl, ?_, ?_⟩ <;> decide +kernel

end

end LazyVectors
